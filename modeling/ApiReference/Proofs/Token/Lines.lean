import ApiReference.Proofs.Token.WellFormed

/-!
# Reading line by line

A line feed ends whatever is being read in front of it: no word, number, literal or mark goes on
behind it, and a literal that is still open is given up there as it is at the end of the text.  Only
a block comment runs on.  So a lexeme ends in the same way before a line feed as at the end of the
text (`lexeme_append_newLine`), and reading the lines of a text one by one reads the whole text
(`tokenize_lines`), unless a line leaves a comment open.
-/

set_option autoImplicit false

namespace ApiReference

/-- The token is a symbol for a block comment that its text leaves open. -/
def Token.isOpenComment (token : Token) : Bool :=
  token.kind = .symbol && ['/', '*'].isPrefixOf token.text.toList

theorem isOpenComment_blockComment (body : List Char) :
    Token.isOpenComment ⟨String.ofList (trimEnd isSpace ('/' :: '*' :: body)), .symbol⟩ = true := by
  have slash : isSpace '/' = false := by decide
  have star : isSpace '*' = false := by decide
  simp [Token.isOpenComment, trimEnd_cons slash, trimEnd_cons star]

/-! ## Where a line ends -/

/-- A run of a class ends before a character outside the class as it does at the end. -/
theorem span_append_cons {inClass : Char → Bool} {stop : Char} (outside : inClass stop = false)
    (text later : List Char) :
    (text ++ stop :: later).takeWhile inClass = text.takeWhile inClass ∧
      (text ++ stop :: later).dropWhile inClass = text.dropWhile inClass ++ stop :: later := by
  induction text with
  | nil => simp [outside]
  | cons character text ih =>
    by_cases inside : inClass character = true
    · simp [inside, ih]
    · simp [inside]

theorem quotedTail_append_newLine {quote : Char} (start : isQuote quote = true)
    (upper lower : List Char) :
    quotedTail quote (upper ++ '\n' :: lower) =
      ⟨(quotedTail quote upper).taken, (quotedTail quote upper).rest ++ '\n' :: lower,
        (quotedTail quote upper).closed⟩ := by
  have notQuote : '\n' ≠ quote := by
    rcases eq_of_isQuote start with rfl | rfl <;> decide
  fun_induction quotedTail quote upper with
  | case1 =>
    rw [List.nil_append, quotedTail.eq_def]
    simp [notQuote]
  | case2 following =>
    rw [List.cons_append, quotedTail.eq_def]
    simp
  | case3 following notClose =>
    rw [List.cons_append, quotedTail.eq_def]
    simp [notClose]
  | case4 notClose =>
    rw [List.singleton_append, quotedTail.eq_def]
    simp [notClose]
  | case5 beyond notClose =>
    rw [List.cons_append, List.cons_append, quotedTail.eq_def]
    simp [notClose]
  | case6 escaped beyond sameLine notClose _ ih =>
    rw [List.cons_append, List.cons_append, quotedTail.eq_def]
    simp [notClose, sameLine, ih, QuotedTail.after]
  | case7 first following notClose sameLine notEscape ih =>
    rw [List.cons_append, quotedTail.eq_def]
    simp [notClose, sameLine, notEscape, ih, QuotedTail.after]

theorem afterBlockComment?_append {text rest : List Char}
    (found : afterBlockComment? text = some rest) (later : List Char) :
    afterBlockComment? (text ++ later) = some (rest ++ later) := by
  fun_induction afterBlockComment? text with
  | case1 => contradiction
  | case2 => contradiction
  | case3 first second following closes =>
    obtain rfl := Option.some.inj found
    simp [afterBlockComment?, closes]
  | case4 first second following runsOn ih =>
    rw [List.cons_append, List.cons_append, afterBlockComment?, if_neg runsOn]
    exact ih found

/-! ## Lexemes -/

/-- A mark takes nothing of the next line with it, unless it opens a comment that is not closed. -/
theorem markLexeme_append_newLine (mark : Char) (following lower : List Char)
    (ended : ∀ token ∈ (markLexeme mark following).token?, token.isOpenComment = false) :
    markLexeme mark (following ++ '\n' :: lower) =
      ⟨(markLexeme mark following).token?, (markLexeme mark following).rest ++ '\n' :: lower⟩ := by
  rcases markLexeme_cases mark following with
    ⟨comment, rfl, rfl⟩ | ⟨body, rfl, rfl⟩ | ⟨rest, rfl, rfl⟩ | single
  · rw [List.cons_append, markLexeme, markLexeme, (span_append_cons (by decide) comment lower).2]
  · rw [List.cons_append, markLexeme, markLexeme]
    cases closed : afterBlockComment? body with
    | none =>
      simp only [markLexeme, blockCommentLexeme, closed] at ended
      exact absurd (isOpenComment_blockComment body) (by simpa using ended)
    | some rest => simp only [blockCommentLexeme, closed, afterBlockComment?_append closed]
  · rfl
  · have singleAbove : ∀ next ∈ (following ++ '\n' :: lower).head?, joinsMark mark next = false := by
      cases following with
      | nil =>
        intro next head
        obtain rfl : '\n' = next := by simpa using head
        exact not_joinsMark_of_isBlank mark (by decide)
      | cons first rest => exact single
    rw [markLexeme_single single, markLexeme_single singleAbove]

/-- A lexeme that leaves no comment open ends before a line feed as it does at the end of the
text. -/
theorem lexeme_append_newLine (first : Char) (following lower : List Char)
    (ended : ∀ token ∈ (lexeme first following).token?, token.isOpenComment = false) :
    lexeme first (following ++ '\n' :: lower) =
      ⟨(lexeme first following).token?, (lexeme first following).rest ++ '\n' :: lower⟩ := by
  have wordStops : isWordPart '\n' = false := by decide
  have numberStops : isNumberPart '\n' = false := by decide
  rcases class_of_character first with blank | start | start | start | plain
  · simp [lexeme, blank]
  · obtain ⟨taken, left⟩ := span_append_cons wordStops following lower
    rw [lexeme_of_isWordStart start, lexeme_of_isWordStart start, taken, left]
  · obtain ⟨taken, left⟩ := span_append_cons numberStops following lower
    rw [lexeme_of_isDigit start, lexeme_of_isDigit start, taken, left]
  · rw [lexeme_of_isQuote start, lexeme_of_isQuote start, quotedLexeme, quotedLexeme,
      quotedTail_append_newLine start]
    dsimp only
    split <;> rfl
  · rw [lexeme_of_isMark plain] at ended
    rw [lexeme_of_isMark plain, lexeme_of_isMark plain]
    exact markLexeme_append_newLine first following lower ended

/-! ## Texts -/

theorem tokenizeChars_append_newLine {upper : List Char}
    (ended : ∀ token ∈ tokenizeChars upper, token.isOpenComment = false) (lower : List Char) :
    tokenizeChars (upper ++ '\n' :: lower) = tokenizeChars upper ++ tokenizeChars lower := by
  fun_induction tokenizeChars upper with
  | case1 => rw [List.nil_append, List.nil_append, tokenizeChars_blank (by decide)]
  | case2 first following ih =>
    have endedHere : ∀ token ∈ (lexeme first following).token?, token.isOpenComment = false :=
      fun token read => ended token (List.mem_append_left _ (Option.mem_toList.mpr read))
    have endedLater : ∀ token ∈ tokenizeChars (lexeme first following).rest,
        token.isOpenComment = false :=
      fun token read => ended token (List.mem_append_right _ read)
    rw [List.cons_append, tokenizeChars, lexeme_append_newLine first following lower endedHere,
      ih endedLater, List.append_assoc]

theorem tokenize_append_newLine {upper : String}
    (ended : ∀ token ∈ tokenize upper, token.isOpenComment = false) (lower : String) :
    tokenize (upper ++ "\n" ++ lower) = tokenize upper ++ tokenize lower := by
  have whole : (upper ++ "\n" ++ lower).toList = upper.toList ++ '\n' :: lower.toList := by
    simp
  rw [tokenize, whole, tokenizeChars_append_newLine ended]
  rfl

theorem readOnto_eq (tokens : List Token) (text : List Char) :
    readOnto tokens text = tokens ++ tokenizeChars text := by
  fun_induction readOnto tokens text with
  | case1 tokens => rw [tokenizeChars, List.append_nil]
  | case2 tokens first following ih => rw [ih, List.append_assoc, ← tokenizeChars]

/-- Reading a text onto other tokens leaves these as they are and reads what it reads alone. -/
theorem appendTokens_eq (tokens : List Token) (text : String) :
    appendTokens tokens text = tokens ++ tokenize text :=
  readOnto_eq tokens text.toList

/-- Lines that leave no comment open to the next are read one by one as they are read together. -/
theorem foldl_appendTokens {lines : List String}
    (ended : ∀ line ∈ lines.dropLast, ∀ token ∈ tokenize line, token.isOpenComment = false)
    (tokens : List Token) :
    lines.foldl appendTokens tokens = tokens ++ tokenize ("\n".intercalate lines) := by
  induction lines generalizing tokens with
  | nil => rw [List.foldl_nil, String.intercalate_nil, tokenize, String.toList_empty, tokenizeChars,
      List.append_nil]
  | cons line later ih =>
    rw [List.foldl_cons, appendTokens_eq]
    cases later with
    | nil => rfl
    | cons next rest =>
      have endedHere := ended line List.mem_cons_self
      have endedLater : ∀ line ∈ (next :: rest).dropLast, ∀ token ∈ tokenize line,
          token.isOpenComment = false :=
        fun line member => ended line (List.mem_cons_of_mem _ member)
      rw [ih endedLater, String.intercalate_cons_cons, tokenize_append_newLine endedHere,
        List.append_assoc]

/-- Reading line by line.  Unless the upper of two texts leaves a block comment open, the tokens of
both with a line feed between are those of the upper and then those of the lower, which is also what
appending the lower to the tokens of the upper leaves.  So the lines of a text may be appended one
by one, if none but the last leaves a comment open. -/
theorem tokenize_lines :
    (∀ upper lower : String, (∀ token ∈ tokenize upper, token.isOpenComment = false) →
      tokenize (upper ++ "\n" ++ lower) = tokenize upper ++ tokenize lower ∧
        appendTokens (tokenize upper) lower = tokenize upper ++ tokenize lower) ∧
    ∀ lines : List String,
      (∀ line ∈ lines.dropLast, ∀ token ∈ tokenize line, token.isOpenComment = false) →
      lines.foldl appendTokens [] = tokenize ("\n".intercalate lines) := by
  refine ⟨fun upper lower ended => ⟨?_, ?_⟩, fun lines ended => ?_⟩
  · exact tokenize_append_newLine ended lower
  · exact appendTokens_eq _ lower
  · exact foldl_appendTokens ended []

/-- The upper text ends inside a literal, in a backslash that escapes nothing. -/
theorem tokenize_lines_openQuote :
    (∀ token ∈ tokenize "Set(\"open \\", token.isOpenComment = false) ∧
      tokenize ("Set(\"open \\" ++ "\n" ++ "\" /* c */ ::") =
        tokenize "Set(\"open \\" ++ tokenize "\" /* c */ ::" ∧
      (∀ line ∈ ["x: // a", "'b", "/* c"].dropLast, ∀ token ∈ tokenize line,
        token.isOpenComment = false) ∧
      ["x: // a", "'b", "/* c"].foldl appendTokens [] =
        tokenize ("\n".intercalate ["x: // a", "'b", "/* c"]) := by
  have ended : ∀ token ∈ tokenize "Set(\"open \\", token.isOpenComment = false := by
    decide +kernel
  have linesEnded : ∀ line ∈ ["x: // a", "'b", "/* c"].dropLast, ∀ token ∈ tokenize line,
      token.isOpenComment = false := by
    decide +kernel
  exact ⟨ended, (tokenize_lines.1 _ _ ended).1, linesEnded, tokenize_lines.2 _ linesEnded⟩

end ApiReference
