import ApiReference.Proofs.Token.WellFormed
import Mathlib.Data.List.Infix

/-!
# What becomes of every character

A text is its tokens and the gaps around them, in their order, and nothing else: each character
belongs to exactly one token or to exactly one gap.  A gap holds white space and comments only.
`LaidOut` says so, and it says of each token where it stands that it is not the middle of something
longer: no word touches a letter, a digit or an underscore on either side, and what comes behind a
number does not continue it.

`skipped_of_lexeme` and `taken_of_lexeme` say what one lexeme takes off the text, and
`tokenize_laidOut` puts this together for all texts.
-/

set_option autoImplicit false

namespace ApiReference

/-! ## Gaps -/

/-- What may be left out between tokens in one go, before the text that follows it. -/
inductive Skipped : List Char → List Char → Prop where
  | space {character : Char} {rest : List Char} (space : isSpace character = true) :
      Skipped [character] rest
  | lineComment {body rest : List Char} (sameLine : '\n' ∉ body)
      (ended : ∀ next ∈ rest.head?, next = '\n') : Skipped ('/' :: '/' :: body) rest
  | blockComment {body rest : List Char} (firstEnd : ¬ ['*', '/'] <:+: body) :
      Skipped ('/' :: '*' :: (body ++ ['*', '/'])) rest

/-- A run of white space and comments, before the text that follows it. -/
inductive Gap : List Char → List Char → Prop where
  | none {rest : List Char} : Gap [] rest
  | skip {piece gap rest : List Char} (skipped : Skipped piece (gap ++ rest)) :
      Gap gap rest → Gap (piece ++ gap) rest

/-! ## Tokens at their places -/

/-- The text that stands behind another one is made up of the tokens and the gaps around them. -/
inductive LaidOut : List Char → List Char → List Token → Prop where
  | ended {before gap : List Char} (isGap : Gap gap []) : LaidOut before gap []
  | token {before gap rest : List Char} {token : Token} {tokens : List Token}
      (isGap : Gap gap (token.text.toList ++ rest))
      (nonempty : token.text ≠ "")
      (apart : token.startsWord = true → ∀ last ∈ (before ++ gap).getLast?, isWordPart last = false)
      (ends : token.EndsBefore rest) :
      LaidOut (before ++ gap ++ token.text.toList) rest tokens →
      LaidOut before (gap ++ (token.text.toList ++ rest)) (token :: tokens)

/-! ## No word runs on -/

/-- Where two texts meet, no word goes on. -/
def Apart (before after : List Char) : Prop :=
  ∀ last ∈ before.getLast?, isWordPart last = true → ∀ next ∈ after.head?, isWordPart next = false

theorem Apart.append {piece rest : List Char} (apart : Apart piece rest) (nonempty : piece ≠ [])
    (before : List Char) : Apart (before ++ piece) rest := by
  rwa [Apart, List.getLast?_append_of_ne_nil before nonempty]

theorem LaidOut.skip {before piece text : List Char} {tokens : List Token}
    (skipped : Skipped piece text) (laidOut : LaidOut (before ++ piece) text tokens) :
    LaidOut before (piece ++ text) tokens := by
  cases laidOut with
  | ended isGap => exact .ended (.skip (by rwa [List.append_nil]) isGap)
  | @token _ gap rest token tokens isGap nonempty apart ends later =>
    rw [List.append_assoc before piece gap] at apart later
    rw [← List.append_assoc]
    exact .token (.skip skipped isGap) nonempty apart ends later

theorem LaidOut.skip_spaces {before spaces text : List Char} {tokens : List Token}
    (areSpaces : ∀ character ∈ spaces, isSpace character = true)
    (laidOut : LaidOut (before ++ spaces) text tokens) : LaidOut before (spaces ++ text) tokens := by
  induction spaces generalizing before with
  | nil => rwa [List.append_nil] at laidOut
  | cons space spaces ih =>
    have later : LaidOut (before ++ [space]) (spaces ++ text) tokens := by
      refine ih (fun character member => areSpaces character (List.mem_cons_of_mem _ member)) ?_
      rwa [List.append_assoc, List.singleton_append]
    rw [← List.singleton_append, List.append_assoc]
    exact later.skip (.space (areSpaces space List.mem_cons_self))

/-! ## What a lexeme takes off the text -/

/-- The body of a block comment reaches to the first end there is. -/
theorem exists_of_afterBlockComment? {text rest : List Char}
    (found : afterBlockComment? text = some rest) :
    ∃ body, text = body ++ ['*', '/'] ++ rest ∧ ¬ ['*', '/'] <:+: body := by
  fun_induction afterBlockComment? text with
  | case1 => contradiction
  | case2 => contradiction
  | case3 first second following closes =>
    obtain ⟨rfl, rfl⟩ := closes
    obtain rfl := Option.some.inj found
    exact ⟨[], rfl, by simp⟩
  | case4 first second following runsOn ih =>
    obtain ⟨body, spelled, firstEnd⟩ := ih found
    refine ⟨first :: body, by rw [spelled]; rfl, ?_⟩
    rw [List.infix_cons_iff]
    rintro (⟨tail, opening⟩ | inside)
    · cases body with
      | nil => simp at opening
      | cons next body =>
        simp only [List.cons_append, List.nil_append, List.cons.injEq] at opening spelled
        exact runsOn ⟨opening.1.symm, spelled.1.trans opening.2.1.symm⟩
    · exact firstEnd inside

/-- Trimming the end takes off a run of the class. -/
theorem exists_trimEnd (inClass : Char → Bool) (text : List Char) :
    ∃ trimmed, text = trimEnd inClass text ++ trimmed ∧
      ∀ character ∈ trimmed, inClass character = true := by
  refine ⟨(text.reverse.takeWhile inClass).reverse, ?_, fun character member => ?_⟩
  · rw [trimEnd, ← List.reverse_append, List.takeWhile_append_dropWhile, List.reverse_reverse]
  · exact List.mem_takeWhile_imp (List.mem_reverse.mp member)

theorem head?_dropWhile {inClass : Char → Bool} {text : List Char} {next : Char}
    (head : next ∈ (text.dropWhile inClass).head?) : inClass next = false := by
  have outside := List.head?_dropWhile_not inClass text
  rw [Option.mem_def.mp head] at outside
  exact outside

theorem apart_of_last {piece rest : List Char} {last : Char} (isLast : piece.getLast? = some last)
    (outside : isWordPart last = false) : Apart piece rest := by
  intro other isOther part
  rw [isLast, Option.mem_some_iff] at isOther
  rw [← isOther, outside] at part
  contradiction

theorem apart_of_head {rest : List Char} (outside : ∀ next ∈ rest.head?, isWordPart next = false)
    (piece : List Char) : Apart piece rest :=
  fun _ _ _ => outside

/-- A lexeme without a token takes off white space or a comment. -/
theorem skipped_of_lexeme {first : Char} {following : List Char}
    (nothing : (lexeme first following).token? = none) :
    ∃ piece, first :: following = piece ++ (lexeme first following).rest ∧
      Skipped piece (lexeme first following).rest ∧ piece ≠ [] ∧
      Apart piece (lexeme first following).rest := by
  rcases class_of_character first with blank | start | start | start | plain
  · have skips : lexeme first following = ⟨none, following⟩ := by simp [lexeme, blank]
    rw [skips]
    exact ⟨[first], rfl, .space (isSpace_of_isBlank blank), by simp,
      apart_of_last rfl (not_isWordPart_of_isBlank blank)⟩
  · simp [lexeme_of_isWordStart start] at nothing
  · simp [lexeme_of_isDigit start] at nothing
  · rw [lexeme_of_isQuote start, quotedLexeme] at nothing
    split at nothing <;> contradiction
  · rw [lexeme_of_isMark plain] at nothing ⊢
    rcases markLexeme_cases first following with
      ⟨comment, rfl, rfl⟩ | ⟨body, rfl, rfl⟩ | ⟨rest, rfl, rfl⟩ | single
    · have ended : ∀ next ∈ (comment.dropWhile (· ≠ '\n')).head?, next = '\n' := by
        intro next head
        simpa using head?_dropWhile head
      rw [markLexeme]
      refine ⟨'/' :: '/' :: comment.takeWhile (· ≠ '\n'), ?_, .lineComment ?_ ended, by simp, ?_⟩
      · simp
      · intro member
        simpa using List.mem_takeWhile_imp member
      · refine apart_of_head (fun next head => ?_) _
        rw [ended next head]
        decide
    · rw [markLexeme] at nothing ⊢
      cases closed : afterBlockComment? body with
      | none => simp [blockCommentLexeme, closed] at nothing
      | some rest =>
        obtain ⟨inner, rfl, firstEnd⟩ := exists_of_afterBlockComment? closed
        rw [blockCommentLexeme, closed]
        exact ⟨'/' :: '*' :: (inner ++ ['*', '/']), by simp, .blockComment firstEnd, by simp,
          apart_of_last (by simp [List.getLast?_cons]) (by decide : isWordPart '/' = false)⟩
    · simp [markLexeme] at nothing
    · simp [markLexeme_single single] at nothing

/-- What one lexeme takes off a text for a token: the text of the token, the white space trimmed
behind it, and what is left. -/
structure Taken (token : Token) (spaces rest : List Char) : Prop where
  nonempty : token.text ≠ ""
  areSpaces : ∀ character ∈ spaces, isSpace character = true
  ends : token.EndsBefore (spaces ++ rest)
  apart : Apart (token.text.toList ++ spaces) rest

theorem Token.EndsBefore.of_neither {token : Token} (noWord : token.startsWord = false)
    (noNumber : token.kind ≠ .number) (rest : List Char) : token.EndsBefore rest :=
  ⟨fun word => by rw [noWord] at word; contradiction, fun number => absurd number noNumber⟩

/-- A literal that is not closed is given up at the end, at a line feed or at a backslash. -/
theorem not_isWordPart_of_open {quote : Char} {text : List Char}
    (opened : (quotedTail quote text).closed = false) :
    ∀ next ∈ (quotedTail quote text).rest.head?, isWordPart next = false := by
  have line : isWordPart '\n' = false := by decide
  have backslash : isWordPart '\\' = false := by decide
  fun_induction quotedTail quote text <;> simp_all [QuotedTail.after]

/-- A symbol for text that is left open takes off this text and what is trimmed behind it. -/
theorem taken_of_trimmed {first : Char} (noSpace : isSpace first = false)
    (noWord : isWordStart first = false) (taken : List Char) {rest : List Char}
    (ended : ∀ next ∈ rest.head?, isWordPart next = false) :
    ∃ spaces, first :: (taken ++ rest) =
        (String.ofList (trimEnd isSpace (first :: taken))).toList ++ (spaces ++ rest) ∧
      Taken ⟨String.ofList (trimEnd isSpace (first :: taken)), .symbol⟩ spaces rest := by
  obtain ⟨trimmed, spelled, areSpaces⟩ := exists_trimEnd isSpace (first :: taken)
  refine ⟨trimmed, ?_, by simp [trimEnd_cons noSpace], areSpaces, .of_neither ?_ (by simp) _,
    apart_of_head ended _⟩
  · rw [String.toList_ofList, ← List.append_assoc, ← spelled, List.cons_append]
  · rw [trimEnd_cons noSpace, startsWord_ofList_cons, noWord]

theorem taken_of_quotedLexeme {quote : Char} {following : List Char} {token : Token}
    (start : isQuote quote = true) (read : (quotedLexeme quote following).token? = some token) :
    ∃ spaces, quote :: following =
        token.text.toList ++ (spaces ++ (quotedLexeme quote following).rest) ∧
      Taken token spaces (quotedLexeme quote following).rest := by
  have noWord : isWordStart quote = false := by
    rcases eq_of_isQuote start with rfl | rfl <;> decide
  have noPart : isWordPart quote = false := by
    rcases eq_of_isQuote start with rfl | rfl <;> decide
  have noSpace : isSpace quote = false := by
    rcases eq_of_isQuote start with rfl | rfl <;> decide
  have whole := quotedTail_append quote following
  unfold quotedLexeme at read ⊢
  dsimp only at read ⊢
  by_cases closed : (quotedTail quote following).closed = true
  · rw [if_pos closed] at read ⊢
    obtain rfl := Option.some.inj read
    refine ⟨[], by simp [whole], by simp, by simp, .of_neither ?_ (by simp) _, ?_⟩
    · rw [startsWord_ofList_cons, noWord]
    · refine apart_of_last ?_ noPart
      simp [List.getLast?_cons, (literalTail_of_closed closed).getLast?]
  · rw [if_neg closed] at read ⊢
    obtain rfl := Option.some.inj read
    have trimmed := taken_of_trimmed noSpace noWord (quotedTail quote following).taken
      (not_isWordPart_of_open (by simpa using closed))
    rwa [whole] at trimmed

theorem not_isWordPart_of_isMark {mark : Char} (plain : isMark mark = true) :
    isWordPart mark = false := by
  simp only [isMark, isWordStart, Bool.and_eq_true, Bool.not_eq_true', Bool.or_eq_false_iff] at plain
  obtain ⟨⟨⟨_, noLetter, noUnderscore⟩, noDigit⟩, _⟩ := plain
  simp only [isWordPart, Char.isAlphanum, noLetter, noUnderscore, noDigit, Bool.or_self]

theorem taken_of_markLexeme {mark : Char} {following : List Char} {token : Token}
    (plain : isMark mark = true) (read : (markLexeme mark following).token? = some token) :
    ∃ spaces, mark :: following =
        token.text.toList ++ (spaces ++ (markLexeme mark following).rest) ∧
      Taken token spaces (markLexeme mark following).rest := by
  have noPart := not_isWordPart_of_isMark plain
  have noWord : isWordStart mark = false := by
    by_contra start
    rw [isWordPart_of_isWordStart (Bool.not_eq_false _ ▸ start)] at noPart
    contradiction
  rcases markLexeme_cases mark following with
    ⟨comment, rfl, rfl⟩ | ⟨body, rfl, rfl⟩ | ⟨rest, rfl, rfl⟩ | single
  · simp [markLexeme] at read
  · rw [markLexeme] at read ⊢
    unfold blockCommentLexeme at read ⊢
    cases closed : afterBlockComment? body with
    | some rest => simp [closed] at read
    | none =>
      simp only [closed] at read ⊢
      obtain rfl := Option.some.inj read
      have noSpace : isSpace '/' = false := by decide
      have ended : ∀ next ∈ ([] : List Char).head?, isWordPart next = false := by simp
      have trimmed := taken_of_trimmed noSpace noWord ('*' :: body) ended
      rwa [List.append_nil] at trimmed
  · obtain rfl := Option.some.inj read
    exact ⟨[], rfl, by decide, by simp, .of_neither (by decide) (by decide) _,
      apart_of_last rfl (by decide : isWordPart ':' = false)⟩
  · rw [markLexeme_single single] at read ⊢
    obtain rfl := Option.some.inj read
    refine ⟨[], by simp, by simp, by simp, .of_neither ?_ (kindOfMark_ne (by decide) mark) _, ?_⟩
    · rw [String.singleton_eq_ofList, startsWord_ofList_cons, noWord]
    · exact apart_of_last (by simp) noPart

/-- A lexeme with a token takes off the text of the token and what is trimmed behind it. -/
theorem taken_of_lexeme {first : Char} {following : List Char} {token : Token}
    (read : (lexeme first following).token? = some token) :
    ∃ spaces, first :: following = token.text.toList ++ (spaces ++ (lexeme first following).rest) ∧
      Taken token spaces (lexeme first following).rest := by
  rcases class_of_character first with blank | start | start | start | plain
  · simp [lexeme, blank] at read
  · rw [lexeme_of_isWordStart start] at read ⊢
    obtain rfl := Option.some.inj read
    have ended : ∀ next ∈ (following.dropWhile isWordPart).head?, isWordPart next = false :=
      fun next head => head?_dropWhile head
    refine ⟨[], ?_, by simp, by simp, ⟨fun _ => ended, fun number => ?_⟩, apart_of_head ended _⟩
    · simp
    · exact absurd number (Token.kind_ofWord_ne (by decide) (by decide) _)
  · rw [lexeme_of_isDigit start] at read ⊢
    obtain rfl := Option.some.inj read
    have ended : ∀ next ∈ (following.dropWhile isNumberPart).head?, isNumberPart next = false :=
      fun next head => head?_dropWhile head
    have noWord : ∀ next ∈ (following.dropWhile isNumberPart).head?, isWordPart next = false := by
      intro next head
      have outside := ended next head
      simp only [isNumberPart, Bool.or_eq_false_iff] at outside
      exact outside.1
    exact ⟨[], by simp, by simp, by simp, ⟨fun _ => noWord, fun _ => ended⟩, apart_of_head noWord _⟩
  · rw [lexeme_of_isQuote start] at read ⊢
    exact taken_of_quotedLexeme start read
  · rw [lexeme_of_isMark plain] at read ⊢
    exact taken_of_markLexeme plain read

/-! ## The whole text -/

theorem isWordStart_of_startsWord {token : Token} {first : Char} {following rest : List Char}
    (spelled : first :: following = token.text.toList ++ rest) (word : token.startsWord = true) :
    isWordStart first = true := by
  cases text : token.text.toList with
  | nil => simp [Token.startsWord, text] at word
  | cons head tail =>
    rw [text] at spelled
    obtain ⟨rfl, _⟩ := List.cons.inj spelled
    simpa [Token.startsWord, text] using word

/-- Reading lays the text out behind any other text that no word of it goes on from. -/
theorem laidOut_tokenizeChars {before text : List Char} (apart : Apart before text) :
    LaidOut before text (tokenizeChars text) := by
  fun_induction tokenizeChars text generalizing before with
  | case1 => exact .ended .none
  | case2 first following ih =>
    cases read : (lexeme first following).token? with
    | none =>
      obtain ⟨piece, spelled, skipped, nonempty, seam⟩ := skipped_of_lexeme read
      rw [spelled]
      exact (ih (seam.append nonempty before)).skip skipped
    | some token =>
      obtain ⟨spaces, spelled, taken⟩ := taken_of_lexeme read
      have nonempty : token.text.toList ++ spaces ≠ [] := by simp [taken.nonempty]
      have later := ih (taken.apart.append nonempty before)
      rw [← List.append_assoc] at later
      have touches : token.startsWord = true → ∀ last ∈ (before ++ []).getLast?,
          isWordPart last = false := by
        intro word last isLast
        rw [List.append_nil] at isLast
        by_contra part
        have outside := apart last isLast (Bool.not_eq_false _ ▸ part) first rfl
        rw [isWordPart_of_isWordStart (isWordStart_of_startsWord spelled word)] at outside
        contradiction
      rw [spelled]
      have noGap : Gap [] (token.text.toList ++ (spaces ++ (lexeme first following).rest)) := .none
      exact .token noGap taken.nonempty touches taken.ends
        (by simpa using later.skip_spaces taken.areSpaces)

/-- Reading loses and invents nothing.  Every text is laid out by its tokens: they stand in it in
their order, none of them empty, with gaps of white space and comments around them, and where a
token stands, no word and no number goes on beyond it. -/
theorem tokenize_laidOut (text : String) : LaidOut [] text.toList (tokenize text) :=
  laidOut_tokenizeChars fun _ nothing => absurd nothing (by simp)

end ApiReference
