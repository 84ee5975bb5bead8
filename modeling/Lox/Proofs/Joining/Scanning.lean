import Lox.Proofs.Counting

/-!
# Texts that are joined by a line end

No token and no comment of a text without lexical errors goes on beyond a line end that follows it.
So the tokens of texts that are joined by line ends are those of each text below as many line ends
as stand before it: `body_join`.
-/

namespace Lox

/-! ### Lexical errors -/

namespace Piece

def isFault : Piece → Bool
  | stray _ | unclosed _ => true
  | trivia _ | token _ _ => false

variable {line : Nat} {ps : List Piece}

/-- There are no lexical errors in sound pieces, and only there. -/
theorem faults_eq_nil_iff :
    (numberPieces line ps).filterMap Item.fault? = [] ↔ ∀ p ∈ ps, p.isFault = false := by
  induction ps generalizing line with
  | nil => exact ⟨nofun, fun _ => rfl⟩
  | cons p ps ih =>
    rw [List.forall_mem_cons]
    cases p with
    | trivia cs => exact ih.trans ⟨fun others => ⟨rfl, others⟩, And.right⟩
    | token type cs => exact ih.trans ⟨fun others => ⟨rfl, others⟩, And.right⟩
    | stray c => exact ⟨nofun, nofun⟩
    | unclosed cs => exact ⟨nofun, nofun⟩

/-- No string is left open where no error says so. -/
theorem closed_of_faults
    (closed : ∀ f ∈ (numberPieces line ps).filterMap Item.fault?, f.error ≠ .unterminatedString) :
    ∀ p ∈ ps, p.isUnclosed = false := by
  induction ps generalizing line with
  | nil => nofun
  | cons p ps ih =>
    rw [List.forall_mem_cons]
    cases p with
    | trivia cs => exact ⟨rfl, ih closed⟩
    | token type cs => exact ⟨rfl, ih closed⟩
    | stray c => exact ⟨rfl, ih (List.forall_mem_cons.mp closed).2⟩
    | unclosed cs => exact absurd rfl (List.forall_mem_cons.mp closed).1

end Piece

/-! ### Lines -/

def Token.later (k : Nat) (t : Token) : Token := { t with line := t.line + k }

def TokenStream.later (k : Nat) (ts : TokenStream) : TokenStream where
  body := ts.body.map (Token.later k)
  endLine := ts.endLine + k

def Item.later (k : Nat) : Item → Item
  | .token t => .token (t.later k)
  | .fault f => .fault { f with line := f.line + k }

theorem Piece.item?_later (line k : Nat) (p : Piece) :
    p.item? (line + k) = (p.item? line).map (Item.later k) := by
  cases p <;> rfl

theorem numberPieces_append (line : Nat) (ps qs : List Piece) :
    numberPieces line (ps ++ qs) =
      numberPieces line ps ++ numberPieces (line + lineEnds (ps.flatMap Piece.text)) qs := by
  induction ps generalizing line with
  | nil => rfl
  | cons p ps ih =>
    simp only [List.cons_append, numberPieces, List.flatMap_cons, lineEnds_append, ih,
      Nat.add_assoc]
    split <;> rfl

theorem numberPieces_later (line k : Nat) (ps : List Piece) :
    numberPieces (line + k) ps = (numberPieces line ps).map (Item.later k) := by
  induction ps generalizing line with
  | nil => rfl
  | cons p ps ih =>
    unfold numberPieces
    dsimp only
    rw [Nat.add_right_comm line k, p.item?_later, ih]
    cases p.item? (line + lineEnds p.text) <;> rfl

def Item.line : Item → Nat
  | .token t => t.line
  | .fault f => f.line

theorem Piece.line_of_item? {line : Nat} {p : Piece} {item : Item}
    (h : p.item? line = some item) : item.line = line := by
  cases p <;> cases h <;> rfl

/-- The items of pieces are on their lines. -/
theorem line_of_mem_numberPieces {line : Nat} {ps : List Piece} {item : Item}
    (mem : item ∈ numberPieces line ps) :
    line ≤ item.line ∧ item.line ≤ line + lineEnds (ps.flatMap Piece.text) := by
  induction ps generalizing line with
  | nil => cases mem
  | cons p ps ih =>
    rw [List.flatMap_cons, lineEnds_append]
    have later (mem : item ∈ numberPieces (line + lineEnds p.text) ps) :
        line ≤ item.line ∧
          item.line ≤ line + (lineEnds p.text + lineEnds (ps.flatMap Piece.text)) := by
      have := ih mem
      omega
    unfold numberPieces at mem
    dsimp only at mem
    split at mem
    · exact later mem
    next first here =>
      rcases List.mem_cons.mp mem with rfl | mem
      · have := Piece.line_of_item? here
        omega
      · exact later mem

theorem filterMap_token?_later (k : Nat) (items : List Item) :
    (items.map (Item.later k)).filterMap Item.token? =
      (items.filterMap Item.token?).map (Token.later k) := by
  rw [List.filterMap_map, List.map_filterMap]
  congr 1
  funext item
  cases item <;> rfl

theorem filterMap_fault?_later {k : Nat} {items : List Item}
    (clean : items.filterMap Item.fault? = []) :
    (items.map (Item.later k)).filterMap Item.fault? = [] := by
  rw [List.filterMap_eq_nil_iff] at clean ⊢
  rintro _ mem
  obtain ⟨item, there, rfl⟩ := List.mem_map.mp mem
  have none := clean item there
  cases item with
  | token => rfl
  | fault => cases none

/-! ### Texts -/

def linesOf (source : String) : Nat := lineEnds source.toList + 1

/-- Texts with a line end between any two of them. -/
def joinLines (sources : List String) : String := "\n".intercalate sources

section Texts

variable {source : String} {sources : List String}

theorem numberPieces_join (closed : ∀ f ∈ (scan source).faults, f.error ≠ .unterminatedString)
    (other : String) :
    numberPieces 1 (Piece.cut (source ++ "\n" ++ other).toList) =
      numberPieces 1 (Piece.cut source.toList) ++
        (numberPieces 1 (Piece.cut other.toList)).map (Item.later (linesOf source)) := by
  have text : (source ++ "\n" ++ other).toList = source.toList ++ '\n' :: other.toList := by simp
  have ends : lineEnds ['\n'] = 1 := rfl
  rw [scan_eq] at closed
  rw [text, Piece.cut_join (Piece.closed_of_faults closed), numberPieces_append,
    Piece.flatMap_text_cut, ← numberPieces_later]
  simp only [numberPieces, Piece.item?, Piece.text, ends, linesOf, Nat.add_assoc]

theorem endLine_scan (source : String) : (scan source).tokens.endLine = linesOf source := by
  rw [scan_eq]
  exact Nat.add_comm _ _

theorem line_le_linesOf {t : Token} (mem : t ∈ (scan source).tokens.body) :
    t.line ≤ linesOf source := by
  rw [scan_eq] at mem
  obtain ⟨item, there, same⟩ := List.mem_filterMap.mp mem
  cases item with
  | fault f => cases same
  | token t' =>
    obtain rfl := Option.some.inj same
    have le : t'.line ≤ _ := (line_of_mem_numberPieces there).2
    rw [Piece.flatMap_text_cut] at le
    unfold linesOf
    omega

/-- The tokens of two texts that are joined, and no error. -/
theorem scan_join (clean : (scan source).faults = []) {other : String}
    (clean' : (scan other).faults = []) :
    (scan (source ++ "\n" ++ other)).tokens.body =
        (scan source).tokens.body ++ (scan other).tokens.body.map (Token.later (linesOf source)) ∧
      (scan (source ++ "\n" ++ other)).faults = [] := by
  have closed : ∀ f ∈ (scan source).faults, f.error ≠ .unterminatedString := by
    rw [clean]
    nofun
  rw [scan_eq] at clean clean' ⊢
  rw [scan_eq, scan_eq]
  dsimp only at clean clean' ⊢
  rw [numberPieces_join closed, List.filterMap_append, List.filterMap_append, clean,
    filterMap_token?_later, filterMap_fault?_later clean']
  exact ⟨rfl, rfl⟩

/-- A text below `k` empty lines. -/
def below : Nat → String → String
  | 0, source => source
  | k + 1, source => "\n" ++ below k source

theorem toList_below_succ (k : Nat) (source : String) :
    (below (k + 1) source).toList = '\n' :: (below k source).toList := by
  rw [below, String.toList_append]
  rfl

theorem below_append (k : Nat) (source other : String) :
    below k (source ++ "\n" ++ other) = below k source ++ "\n" ++ other := by
  induction k with
  | zero => rfl
  | succ k ih => rw [below, below, ih, String.append_assoc, String.append_assoc, String.append_assoc]

theorem lineEnds_below (k : Nat) (source : String) :
    lineEnds (below k source).toList = lineEnds source.toList + k := by
  induction k with
  | zero => rfl
  | succ k ih =>
    rw [toList_below_succ, ← Nat.add_assoc, ← ih]
    exact List.count_cons_self

theorem linesOf_below (k : Nat) (source : String) : linesOf (below k source) = k + linesOf source := by
  unfold linesOf
  rw [lineEnds_below]
  omega

theorem numberPieces_below (line k : Nat) (source : String) :
    numberPieces line (Piece.cut (below k source).toList) =
      numberPieces (line + k) (Piece.cut source.toList) := by
  induction k generalizing line with
  | zero => rfl
  | succ k ih =>
    have none : ∀ p ∈ Piece.cut [], p.isUnclosed = false := by
      rw [Piece.cut_nil]
      nofun
    have first := Piece.cut_join none (below k source).toList
    rw [Piece.cut_nil, List.nil_append, List.nil_append] at first
    rw [toList_below_succ, first, numberPieces, ← Nat.succ_add_eq_add_succ, ← ih]
    rfl

/-- The tokens of a text below empty lines are on as many later lines. -/
theorem tokens_below (k : Nat) (source : String) :
    (scan (below k source)).tokens = (scan source).tokens.later k := by
  rw [scan_eq, scan_eq, numberPieces_below, numberPieces_later, filterMap_token?_later,
    lineEnds_below, ← Nat.add_assoc]
  rfl

theorem faults_below (clean : (scan source).faults = []) (k : Nat) :
    (scan (below k source)).faults = [] := by
  rw [scan_eq] at clean ⊢
  dsimp only at clean ⊢
  rw [numberPieces_below, numberPieces_later]
  exact filterMap_fault?_later clean

/-- The number of lines of the texts before the text at an index. -/
def linesAbove : List String → Nat → Nat
  | source :: sources, i + 1 => linesOf source + linesAbove sources i
  | _, _ => 0

def belowEach (above : Nat → Nat) (sources : List String) : List String :=
  sources.mapIdx fun i source => below (above i) source

theorem belowEach_cons (above : Nat → Nat) (source : String) (sources : List String) :
    belowEach above (source :: sources) =
      below (above 0) source :: belowEach (fun i => above (i + 1)) sources :=
  List.mapIdx_cons

def bodies (sources : List String) : List Token :=
  sources.flatMap fun source => (scan source).tokens.body

theorem bodies_cons (source : String) (sources : List String) :
    bodies (source :: sources) = (scan source).tokens.body ++ bodies sources :=
  List.flatMap_cons

/-- The tokens of texts that are joined are those of each text below the lines before it, and there
is no error. -/
theorem body_join (clean : ∀ source ∈ sources, (scan source).faults = []) (k : Nat) :
    (scan (below k (joinLines sources))).tokens.body =
        bodies (belowEach (linesAbove sources · + k) sources) ∧
      (scan (below k (joinLines sources))).faults = [] := by
  unfold joinLines
  induction sources generalizing k with
  | nil =>
    have none : (scan "").tokens.body = [] := by decide +kernel
    rw [String.intercalate_nil]
    refine ⟨?_, faults_below (by decide +kernel) k⟩
    rw [tokens_below, TokenStream.later, none]
    rfl
  | cons source sources ih =>
    obtain ⟨here, others⟩ := List.forall_mem_cons.mp clean
    have lower : (fun i => linesAbove (source :: sources) (i + 1) + k) =
        (linesAbove sources · + (k + linesOf source)) := by
      funext i
      rw [linesAbove]
      omega
    have first : linesAbove (source :: sources) 0 + k = k := Nat.zero_add k
    rw [belowEach_cons, bodies_cons, lower, first]
    cases sources with
    | nil =>
      rw [String.intercalate_singleton]
      exact ⟨(List.append_nil _).symm, faults_below here k⟩
    | cons next sources =>
      obtain ⟨body, -⟩ := ih others (k + linesOf source)
      have clean' : (scan ("\n".intercalate (next :: sources))).faults = [] := (ih others 0).2
      obtain ⟨whole, none⟩ := scan_join (faults_below here k) clean'
      rw [String.intercalate_cons_cons, below_append]
      refine ⟨?_, none⟩
      rw [whole, ← body, tokens_below (k + linesOf source), linesOf_below]
      rfl

end Texts

end Lox
