import Lox.Proofs.LongestMatch.Lexeme

/-!
# Cutting by longest match

`Cuts` says what it means to cut a text into blanks, tokens that are as long as can be, and errors.
`cuts_iff` says that `Piece.cut` is the only way to do so.
-/

namespace Lox

namespace Piece

/-- A piece that may be cut off before the rest of a text. -/
inductive First : Piece → List Char → Prop
  | trivia {text rest} : Trivia text rest → First (.trivia text) rest
  | token {type lexeme rest} : ¬ BeginsTrivia (lexeme ++ rest) → Lexeme type lexeme →
    (∀ type' longer, Lexeme type' longer → longer <+: lexeme ++ rest →
      longer.length ≤ lexeme.length) → First (.token type lexeme) rest
  | stray {c rest} : ¬ BeginsTrivia (c :: rest) → ¬ BeginsLexeme (c :: rest) → c ≠ '"' →
    First (.stray c) rest
  | unclosed {text} : ¬ BeginsTrivia ('"' :: text) → ¬ BeginsLexeme ('"' :: text) → '"' ∉ text →
    First (.unclosed ('"' :: text)) []

inductive Cuts : List Char → List Piece → Prop
  | nil : Cuts [] []
  | cons {p rest ps} : First p rest → Cuts rest ps → Cuts (p.text ++ rest) (p :: ps)

end Piece

/-! ### What is cut off first -/

namespace Piece

variable {c : Char} {rest : List Char}

theorem not_beginsTrivia (noBlank : isBlank c = false)
    (noComment : c = '/' → ∀ d, rest.head? = some d → d ≠ '/') : ¬ BeginsTrivia (c :: rest) := by
  rintro ⟨text, after, trivia, whole⟩
  cases trivia with
  | blank mem =>
    obtain ⟨rfl, -⟩ := List.cons.inj whole
    simp only [isBlank, List.mem_cons, List.not_mem_nil, or_false] at noBlank mem
    rcases mem with rfl | rfl | rfl | rfl <;> simp at noBlank
  | comment none ends =>
    obtain ⟨rfl, rfl⟩ := List.cons.inj whole
    exact noComment rfl '/' rfl rfl

theorem first_blank (blank : isBlank c = true) : First (.trivia [c]) rest := by
  refine .trivia (.blank ?_)
  simpa [isBlank, or_assoc] using blank

theorem first_splitSlash (after : List Char) : First (splitSlash after).1 (splitSlash after).2 := by
  unfold splitSlash
  split
  next rest =>
    refine .trivia (.comment ?_ ?_)
    · intro mem
      simpa using List.mem_takeWhile_imp mem
    · intro c here
      simpa using stop_dropWhile (· != '\n') rest c here
  next noSlash =>
    have noComment : ¬ BeginsTrivia ('/' :: after) := by
      refine not_beginsTrivia (by decide) fun _ d here same => ?_
      cases after with
      | nil => cases here
      | cons e rest =>
        obtain rfl := Option.some.inj here
        exact noSlash rest (by rw [same])
    refine .token noComment (.operator (by decide)) ?_
    · intro type longer lexeme pre
      cases longer with
      | nil => exact absurd rfl lexeme.ne_nil
      | cons d ds =>
        obtain ⟨rfl, -⟩ := List.cons_prefix_cons.mp pre
        rcases operators_cons (lexeme.mark (by decide) (by decide) (by decide)) with
          ⟨rfl, -⟩ | ⟨long, short, mark, -⟩
        · simp
        · simp [markWithEqual?] at mark

theorem first_splitString (rest : List Char) : First (splitString rest).1 (splitString rest).2 := by
  have noTrivia : ¬ BeginsTrivia ('"' :: rest) := not_beginsTrivia (by decide) (by simp)
  have whole := List.takeWhile_append_dropWhile (p := (· != '"')) (l := rest)
  have none : '"' ∉ rest.takeWhile (· != '"') := by
    intro mem
    simpa using List.mem_takeWhile_imp mem
  unfold splitString
  dsimp only
  split
  next open_ =>
    rw [open_, List.append_nil] at whole
    rw [whole] at none
    refine .unclosed noTrivia ?_ none
    rintro ⟨type, lexeme, isLexeme, pre⟩
    cases lexeme with
    | nil => exact isLexeme.ne_nil rfl
    | cons d ds =>
      obtain ⟨rfl, inner⟩ := List.cons_prefix_cons.mp pre
      obtain ⟨contents, -, rfl⟩ := isLexeme.quoted
      have quote : '"' ∈ contents ++ ['"'] := by simp
      exact none (inner.subset quote)
  next quote after closed =>
    obtain rfl : quote = '"' := by
      have := stop_dropWhile (· != '"') rest quote (by rw [closed]; rfl)
      simpa using this
    rw [closed] at whole
    have text : '"' :: (rest.takeWhile (· != '"')) ++ ['"'] ++ after = '"' :: rest := by
      simp [whole]
    refine .token (text ▸ noTrivia) (.string none) ?_
    intro type longer lexeme pre
    rw [text] at pre
    cases longer with
    | nil => exact absurd rfl lexeme.ne_nil
    | cons d ds =>
      obtain ⟨rfl, more, inner⟩ := List.cons_prefix_cons.mp pre
      obtain ⟨contents, noQuote, rfl⟩ := lexeme.quoted
      -- Both strings end at the first quote.
      have same : rest.takeWhile (· != '"') = contents := by
        rw [← inner, List.append_assoc]
        refine takeWhile_stretch (fun d hd => ?_) (by simp)
        simpa using ne_of_mem_of_not_mem hd noQuote
      simp [same]

theorem first_splitWord (letter : c.isAlpha = true) (noBlank : isBlank c = false)
    (noSlash : c ≠ '/') : First (splitWord (c :: rest)).1 (splitWord (c :: rest)).2 := by
  have wordRest : isWordRest c = true := by simp [isWordRest, Char.isAlphanum, letter]
  have whole := List.takeWhile_append_dropWhile (p := isWordRest) (l := c :: rest)
  have others : ∀ d ∈ rest.takeWhile isWordRest, d.isAlphanum ∨ d = '_' := by
    intro d hd
    simpa [isWordRest] using List.mem_takeWhile_imp hd
  have word : (c :: rest).takeWhile isWordRest = c :: rest.takeWhile isWordRest := by
    simp [wordRest]
  unfold splitWord
  dsimp only
  refine .token ?_ ?_ ?_
  · rw [whole]
    exact not_beginsTrivia noBlank fun same => absurd same noSlash
  · rw [word]
    unfold TokenType.ofWord
    cases found : TokenType.keywords.lookup (String.ofList (c :: rest.takeWhile isWordRest)) with
    | none =>
      refine .name letter others ?_
      intro mem
      obtain ⟨p, hp, same⟩ := List.mem_map.mp mem
      have other := List.lookup_eq_none_iff.mp found p hp
      rw [same, bne_self_eq_false] at other
      exact Bool.noConfusion other
    | some type =>
      have := Lexeme.keyword (TokenType.mem_keywords found)
      rwa [String.toList_ofList] at this
  · intro type longer lexeme pre
    rw [whole] at pre
    cases longer with
    | nil => exact absurd rfl lexeme.ne_nil
    | cons d ds =>
      obtain ⟨rfl, -⟩ := List.cons_prefix_cons.mp pre
      exact length_le_takeWhile (lexeme.word letter) pre

/-- A number that begins with digits is those digits, or has a point and decimals after them. -/
theorem number_prefix {type : TokenType} {longer : List Char} (digit : c.isDigit = true)
    (lexeme : Lexeme type longer) (pre : longer <+: c :: rest) :
    longer.length ≤ ((c :: rest).takeWhile Char.isDigit).length ∨
      ∃ d decimals, (∀ e ∈ d :: decimals, e.isDigit) ∧
        longer = (c :: rest).takeWhile Char.isDigit ++ '.' :: d :: decimals ∧
        '.' :: d :: decimals <+: (c :: rest).dropWhile Char.isDigit := by
  cases longer with
  | nil => exact absurd rfl lexeme.ne_nil
  | cons b longer =>
    obtain ⟨rfl, -⟩ := List.cons_prefix_cons.mp pre
    rcases lexeme.number digit with digits | ⟨digits, decimals, allDigits, some, allDecimals, split⟩
    · exact .inl (length_le_takeWhile digits pre)
    · cases decimals with
      | nil => exact absurd rfl some
      | cons d decimals =>
        obtain ⟨more, same⟩ := pre
        rw [split, List.append_assoc] at same
        have point : ∀ e, ('.' :: d :: decimals ++ more).head? = Option.some e →
            e.isDigit = false := by
          intro e here
          obtain rfl := Option.some.inj here
          rfl
        refine .inr ⟨d, decimals, allDecimals, ?_, ?_⟩
        · rw [split, ← same, takeWhile_stretch allDigits point]
        · rw [← same, dropWhile_stretch allDigits point]
          exact List.prefix_append _ _

theorem first_splitNumber (digit : c.isDigit = true) (noBlank : isBlank c = false)
    (noSlash : c ≠ '/') : First (splitNumber (c :: rest)).1 (splitNumber (c :: rest)).2 := by
  have noTrivia : ¬ BeginsTrivia (c :: rest) :=
    not_beginsTrivia noBlank fun same => absurd same noSlash
  have whole := List.takeWhile_append_dropWhile (p := Char.isDigit) (l := c :: rest)
  have some : (c :: rest).takeWhile Char.isDigit ≠ [] := by simp [digit]
  have digits : ∀ d ∈ (c :: rest).takeWhile Char.isDigit, d.isDigit :=
    fun d => List.mem_takeWhile_imp
  unfold splitNumber
  dsimp only
  split
  next d after pointed =>
    split
    next isDecimal =>
      have text : (c :: rest).takeWhile Char.isDigit ++
          '.' :: (d :: after.takeWhile Char.isDigit) ++ after.dropWhile Char.isDigit = c :: rest := by
        rw [pointed] at whole
        rw [List.append_assoc]
        simpa using whole
      refine .token (by rwa [text]) (.decimal some digits (List.cons_ne_nil _ _) ?_) ?_
      · intro e he
        rcases List.mem_cons.mp he with rfl | he
        · exact isDecimal
        · exact List.mem_takeWhile_imp he
      · intro type longer lexeme pre
        rw [text] at pre
        rcases number_prefix digit lexeme pre with le | ⟨e, decimals, all, rfl, tail⟩
        · simp only [List.length_append]
          omega
        · rw [pointed] at tail
          obtain ⟨rfl, inner⟩ := List.cons_prefix_cons.mp (List.cons_prefix_cons.mp tail).2
          have := length_le_takeWhile (fun d hd => all d (List.mem_cons_of_mem _ hd)) inner
          simp only [List.length_append, List.length_cons]
          omega
    next noDecimal =>
      rw [pointed] at whole
      refine .token (by rwa [whole]) (.whole some digits) ?_
      intro type longer lexeme pre
      rw [whole] at pre
      rcases number_prefix digit lexeme pre with le | ⟨e, decimals, all, rfl, tail⟩
      · exact le
      · rw [pointed] at tail
        obtain ⟨rfl, -⟩ := List.cons_prefix_cons.mp (List.cons_prefix_cons.mp tail).2
        exact absurd (all e List.mem_cons_self) noDecimal
  next noPoint =>
    refine .token (by rwa [whole]) (.whole some digits) ?_
    intro type longer lexeme pre
    rw [whole] at pre
    rcases number_prefix digit lexeme pre with le | ⟨e, decimals, all, rfl, more, tail⟩
    · exact le
    · exact absurd tail.symm (noPoint e _)

theorem first_mark {type : TokenType} (mark : mark? c = some type) (noBlank : isBlank c = false)
    (noSlash : c ≠ '/') (noDigit : c.isDigit = false)
    (noLetter : c.isAlpha = false) (noQuote : c ≠ '"') : First (.token type [c]) rest := by
  refine .token (not_beginsTrivia noBlank fun same => absurd same noSlash)
    (.operator (operator_of_mark mark)) ?_
  intro type' longer lexeme pre
  cases longer with
  | nil => exact absurd rfl lexeme.ne_nil
  | cons d ds =>
    obtain ⟨rfl, -⟩ := List.cons_prefix_cons.mp pre
    rcases operators_cons (lexeme.mark noDigit noLetter noQuote) with
      ⟨rfl, -⟩ | ⟨long, short, other, -⟩
    · simp
    · unfold mark? at mark
      split at mark <;> simp [markWithEqual?] at mark other

theorem first_splitMark {long short : TokenType} (mark : markWithEqual? c = some (long, short))
    (noBlank : isBlank c = false) (noSlash : c ≠ '/') (noDigit : c.isDigit = false)
    (noLetter : c.isAlpha = false) (noQuote : c ≠ '"') :
    First (splitMark c long short rest).1 (splitMark c long short rest).2 := by
  have noTrivia (after : List Char) : ¬ BeginsTrivia (c :: after) :=
    not_beginsTrivia noBlank fun same => absurd same noSlash
  have operators := operators_of_markWithEqual mark
  have tail {type : TokenType} {ds : List Char} (lexeme : Lexeme type (c :: ds)) :
      ds = [] ∨ ds = ['='] := by
    rcases operators_cons (lexeme.mark noDigit noLetter noQuote) with
      ⟨rfl, -⟩ | ⟨_, _, -, ⟨rfl, -⟩ | ⟨rfl, -⟩⟩
    · exact .inl rfl
    · exact .inl rfl
    · exact .inr rfl
  unfold splitMark
  split
  · refine .token (noTrivia _) (.operator operators.2) ?_
    intro type longer lexeme pre
    cases longer with
    | nil => exact absurd rfl lexeme.ne_nil
    | cons d ds =>
      obtain ⟨rfl, -⟩ := List.cons_prefix_cons.mp pre
      rcases tail lexeme with rfl | rfl <;> simp
  next noEqual =>
    refine .token (noTrivia _) (.operator operators.1) ?_
    intro type longer lexeme pre
    cases longer with
    | nil => exact absurd rfl lexeme.ne_nil
    | cons d ds =>
      obtain ⟨rfl, pre⟩ := List.cons_prefix_cons.mp pre
      rcases tail lexeme with rfl | rfl
      · simp
      · obtain ⟨more, rfl⟩ := pre
        exact absurd rfl (noEqual more)

theorem first_stray (noMark : mark? c = none) (noEqual : markWithEqual? c = none)
    (noBlank : isBlank c = false) (noSlash : c ≠ '/') (noDigit : c.isDigit = false)
    (noLetter : c.isAlpha = false) (noQuote : c ≠ '"') : First (.stray c) rest := by
  refine .stray (not_beginsTrivia noBlank fun same => absurd same noSlash) ?_ noQuote
  rintro ⟨type, lexeme, isLexeme, pre⟩
  cases lexeme with
  | nil => exact isLexeme.ne_nil rfl
  | cons d ds =>
    obtain ⟨rfl, -⟩ := List.cons_prefix_cons.mp pre
    rcases operators_cons (isLexeme.mark noDigit noLetter noQuote) with
      ⟨-, mark | ⟨slash, -⟩⟩ | ⟨long, short, mark, -⟩
    · simp [noMark] at mark
    · exact noSlash slash
    · simp [noEqual] at mark

/-- What is cut off a text first may be. -/
theorem first_split (c : Char) (rest : List Char) : First (split c rest).1 (split c rest).2 := by
  unfold split
  split
  next blank => exact first_blank blank
  next noBlank =>
  rw [Bool.not_eq_true] at noBlank
  split
  next slash => exact first_splitSlash rest
  next noSlash =>
  split
  next quote => exact first_splitString rest
  next noQuote =>
  split
  next digit => exact first_splitNumber digit noBlank noSlash
  next noDigit =>
  rw [Bool.not_eq_true] at noDigit
  split
  next letter => exact first_splitWord letter noBlank noSlash
  next noLetter =>
  rw [Bool.not_eq_true] at noLetter
  split
  next mark => exact first_mark mark noBlank noSlash noDigit noLetter noQuote
  next mark => exact first_splitMark mark noBlank noSlash noDigit noLetter noQuote
  next noMark noEqual =>
    exact first_stray noMark noEqual noBlank noSlash noDigit noLetter noQuote

/-! ### Nothing else may be -/

theorem isBlank_of_isDigit (digit : c.isDigit = true) : isBlank c = false ∧ c ≠ '/' ∧ c ≠ '"' := by
  refine ⟨?_, ?_, ?_⟩
  · by_contra blank
    simp only [isBlank, Bool.not_eq_false, Bool.or_eq_true, beq_iff_eq] at blank
    rcases blank with ((rfl | rfl) | rfl) | rfl <;> simp at digit
  · rintro rfl
    simp at digit
  · rintro rfl
    simp at digit

theorem isBlank_of_isAlpha (letter : c.isAlpha = true) :
    isBlank c = false ∧ c ≠ '/' ∧ c ≠ '"' := by
  refine ⟨?_, ?_, ?_⟩
  · by_contra blank
    simp only [isBlank, Bool.not_eq_false, Bool.or_eq_true, beq_iff_eq] at blank
    rcases blank with ((rfl | rfl) | rfl) | rfl <;> simp at letter
  · rintro rfl
    simp at letter
  · rintro rfl
    simp at letter

theorem split_of_isDigit (digit : c.isDigit = true) : split c rest = splitNumber (c :: rest) := by
  obtain ⟨noBlank, noSlash, noQuote⟩ := isBlank_of_isDigit digit
  simp [split, noBlank, noSlash, noQuote, digit]

theorem split_of_isAlpha (letter : c.isAlpha = true) : split c rest = splitWord (c :: rest) := by
  obtain ⟨noBlank, noSlash, noQuote⟩ := isBlank_of_isAlpha letter
  simp [split, noBlank, noSlash, noQuote, isDigit_of_isAlpha letter, letter]

theorem splitWord_word {word : List Char} (all : ∀ d ∈ word, isWordRest d) :
    splitWord word = (.token (.ofWord (String.ofList word)) word, []) := by
  have taken := List.takeWhile_eq_self_iff.mpr all
  have left := List.dropWhile_eq_nil_iff.mpr all
  simp [splitWord, taken, left]

/-- A token by itself is one piece, so its kind is settled by its text. -/
theorem split_lexeme {type : TokenType} {cs : List Char} (h : Lexeme type (c :: cs)) :
    split c cs = (.token type (c :: cs), []) := by
  generalize whole : c :: cs = lexeme at h
  cases h with
  | operator mem =>
    subst whole
    have all : ∀ p ∈ operators,
        p.1.head?.map (split · p.1.tail) = Option.some (.token p.2 p.1, []) := by decide
    exact Option.some.inj (all _ mem)
  | @string contents none =>
    obtain ⟨rfl, rfl⟩ := List.cons.inj whole
    have other : ∀ d ∈ contents, (d != '"') = true := by
      intro d hd
      simpa using ne_of_mem_of_not_mem hd none
    -- The contents go up to the quote that ends the string, and no further.
    have stop : ∀ d, ['"'].head? = Option.some d → (d != '"') = false := by simp
    have taken : (contents ++ ['"']).takeWhile (· != '"') = contents := takeWhile_stretch other stop
    have left : (contents ++ ['"']).dropWhile (· != '"') = ['"'] := dropWhile_stretch other stop
    simp [split, isBlank, splitString, taken, left]
  | whole _ digits =>
    have taken := List.takeWhile_eq_self_iff.mpr digits
    have left := List.dropWhile_eq_nil_iff.mpr digits
    rw [split_of_isDigit (digits c (whole ▸ List.mem_cons_self)), whole]
    simp [splitNumber, taken, left]
  | @decimal digits decimals some allDigits someDecimals allDecimals =>
    cases decimals with
    | nil => exact absurd rfl someDecimals
    | cons d decimals =>
      have isDecimal : d.isDigit = true := allDecimals d List.mem_cons_self
      have point : ∀ e, ('.' :: d :: decimals).head? = Option.some e → e.isDigit = false := by simp
      have decimalsOnly : ∀ e ∈ decimals, e.isDigit :=
        fun e he => allDecimals e (List.mem_cons_of_mem _ he)
      have taken := List.takeWhile_eq_self_iff.mpr decimalsOnly
      have left := List.dropWhile_eq_nil_iff.mpr decimalsOnly
      have first : c.isDigit = true := by
        cases digits with
        | nil => exact absurd rfl some
        | cons e digits =>
          obtain ⟨rfl, -⟩ := List.cons.inj whole
          exact allDigits c List.mem_cons_self
      rw [split_of_isDigit first, whole]
      simp [splitNumber, takeWhile_stretch allDigits point, dropWhile_stretch allDigits point,
        isDecimal, taken, left]
  | @keyword word type mem =>
    have letters := (keywords_letters mem).2
    rw [split_of_isAlpha (letters c (whole ▸ List.mem_cons_self)), whole, splitWord_word]
    · rw [String.ofList_toList, TokenType.ofWord_of_mem mem]
    · intro d hd
      simp [isWordRest, Char.isAlphanum, letters d hd]
  | name first others spelled =>
    obtain ⟨rfl, rfl⟩ := List.cons.inj whole
    rw [split_of_isAlpha first, splitWord_word]
    · rw [TokenType.ofWord_of_notMem spelled]
    · intro d hd
      rcases List.mem_cons.mp hd with rfl | hd
      · simp [isWordRest, Char.isAlphanum, first]
      · simpa [isWordRest] using others d hd

end Piece

/-- A text belongs to one kind of token. -/
theorem Lexeme.unique {type type' : TokenType} {cs : List Char} (h : Lexeme type cs)
    (h' : Lexeme type' cs) : type = type' := by
  cases cs with
  | nil => exact absurd rfl h.ne_nil
  | cons c cs =>
    have same := (Piece.split_lexeme h).symm.trans (Piece.split_lexeme h')
    simpa using same

theorem Trivia.unique {text text' rest rest' : List Char} (h : Trivia text rest)
    (h' : Trivia text' rest') (same : text ++ rest = text' ++ rest') :
    text = text' ∧ rest = rest' := by
  cases h with
  | blank mem =>
    cases h' with
    | blank => simpa using same
    | comment =>
      obtain ⟨rfl, -⟩ := List.cons.inj same
      simp at mem
  | comment none ends =>
    cases h' with
    | blank mem =>
      obtain ⟨rfl, -⟩ := List.cons.inj same
      simp at mem
    | comment none' ends' =>
      simp only [List.cons_append, List.cons.injEq, true_and] at same
      have inside {text : List Char} (none : '\n' ∉ text) : ∀ d ∈ text, (d != '\n') = true := by
        intro d hd
        simpa using ne_of_mem_of_not_mem hd none
      have stop {rest : List Char} (ends : ∀ c, rest.head? = some c → c = '\n') :
          ∀ d, rest.head? = some d → (d != '\n') = false := by
        intro d here
        simp [ends d here]
      -- Both comments end at the first line end.
      have taken := congrArg (List.takeWhile (· != '\n')) same
      have left := congrArg (List.dropWhile (· != '\n')) same
      rw [takeWhile_stretch (inside none) (stop ends),
        takeWhile_stretch (inside none') (stop ends')] at taken
      rw [dropWhile_stretch (inside none) (stop ends),
        dropWhile_stretch (inside none') (stop ends')] at left
      exact ⟨by rw [taken], left⟩

namespace Piece

theorem First.text_ne_nil {p : Piece} {rest : List Char} (h : First p rest) : p.text ≠ [] := by
  cases h with
  | trivia trivia => cases trivia <;> exact List.cons_ne_nil _ _
  | token _ lexeme => exact lexeme.ne_nil
  | stray => exact List.cons_ne_nil _ _
  | unclosed => exact List.cons_ne_nil _ _

theorem First.token_unique {type : TokenType} {lexeme rest rest' : List Char} {p : Piece}
    (h : First (.token type lexeme) rest) (h' : First p rest')
    (same : lexeme ++ rest = p.text ++ rest') : .token type lexeme = p ∧ rest = rest' := by
  cases h with
  | token noTrivia isLexeme longest =>
    have begins : BeginsLexeme (p.text ++ rest') := ⟨type, lexeme, isLexeme, rest, same⟩
    cases h' with
    | trivia trivia => exact absurd ⟨_, _, trivia, same⟩ noTrivia
    | @token type' lexeme' _ _ isLexeme' longest' =>
      have le := longest _ _ isLexeme' ⟨rest', same.symm⟩
      have ge := longest' _ _ isLexeme ⟨rest, same⟩
      obtain ⟨rfl, rfl⟩ := List.append_inj same (Nat.le_antisymm ge le)
      exact ⟨by rw [isLexeme.unique isLexeme'], rfl⟩
    | stray _ noLexeme => exact absurd begins noLexeme
    | unclosed _ noLexeme =>
      rw [List.append_nil] at begins
      exact absurd begins noLexeme

/-- What is cut off first is settled by the text. -/
theorem First.unique {p p' : Piece} {rest rest' : List Char} (h : First p rest)
    (h' : First p' rest') (same : p.text ++ rest = p'.text ++ rest') : p = p' ∧ rest = rest' := by
  have second := h'
  have first := h
  cases h with
  | trivia trivia =>
    cases h' with
    | trivia trivia' =>
      obtain ⟨rfl, rfl⟩ := trivia.unique trivia' same
      exact ⟨rfl, rfl⟩
    | token noTrivia => exact absurd ⟨_, _, trivia, same.symm⟩ noTrivia
    | stray noTrivia => exact absurd ⟨_, _, trivia, same.symm⟩ noTrivia
    | unclosed noTrivia =>
      rw [List.append_nil] at same
      exact absurd ⟨_, _, trivia, same.symm⟩ noTrivia
  | token noTrivia isLexeme longest =>
    exact First.token_unique (.token noTrivia isLexeme longest) second same
  | stray noTrivia _ noQuote =>
    cases h' with
    | trivia trivia => exact absurd ⟨_, _, trivia, same⟩ noTrivia
    | token =>
      cases (second.token_unique first same.symm).1
    | stray => simpa [text] using same
    | unclosed =>
      obtain ⟨rfl, -⟩ := List.cons.inj same
      exact absurd rfl noQuote
  | unclosed noTrivia =>
    cases h' with
    | trivia trivia =>
      rw [List.append_nil] at same
      exact absurd ⟨_, _, trivia, same⟩ noTrivia
    | token =>
      cases (second.token_unique first same.symm).1
    | stray _ _ noQuote =>
      obtain ⟨rfl, -⟩ := List.cons.inj same
      exact absurd rfl noQuote
    | unclosed => simpa [text] using same

theorem cuts_cut (cs : List Char) : Cuts cs (cut cs) := by
  induction cs using cut.induct with
  | case1 =>
    rw [cut_nil]
    exact .nil
  | case2 c rest later =>
    have step := Cuts.cons (first_split c rest) later
    rwa [text_split, ← cut_cons] at step

theorem Cuts.unique {cs : List Char} {ps qs : List Piece} (h : Cuts cs ps) (h' : Cuts cs qs) :
    ps = qs := by
  induction h generalizing qs with
  | nil =>
    generalize none : [] = cs at h'
    cases h' with
    | nil => rfl
    | cons first => exact absurd (List.append_eq_nil_iff.mp none.symm).1 first.text_ne_nil
  | @cons p rest ps first _ ih =>
    generalize whole : p.text ++ rest = cs at h'
    cases h' with
    | nil => exact absurd (List.append_eq_nil_iff.mp whole).1 first.text_ne_nil
    | cons first' cuts =>
      obtain ⟨rfl, rfl⟩ := first.unique first' whole
      rw [ih cuts]

theorem cuts_iff {cs : List Char} {ps : List Piece} : Cuts cs ps ↔ ps = cut cs := by
  constructor
  · intro cuts
    exact cuts.unique (cuts_cut cs)
  · rintro rfl
    exact cuts_cut cs

theorem Cuts.lexeme {cs : List Char} {ps : List Piece} (h : Cuts cs ps) {type : TokenType}
    {lexeme : List Char} (mem : .token type lexeme ∈ ps) : Lexeme type lexeme := by
  induction h with
  | nil => simp at mem
  | cons first _ ih =>
    rcases List.mem_cons.mp mem with rfl | mem
    · cases first with
      | token _ isLexeme => exact isLexeme
    · exact ih mem

theorem flatMap_text_cuts {cs : List Char} {ps : List Piece} (h : Cuts cs ps) :
    ps.flatMap text = cs := by
  rw [cuts_iff.mp h, flatMap_text_cut]

end Piece

end Lox
