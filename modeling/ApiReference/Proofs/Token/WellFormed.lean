import ApiReference.Token.Lexer
import Mathlib.Data.List.TakeWhile

/-!
# Well-formed tokens

A token that is read from text is of one of five shapes: a word, a number, a closed literal, the
token `::`, or a single mark.  The only others are the symbols that stand for a literal or a block
comment which the text leaves open (`Token.isUnterminated`).  `Token.WellFormed` has one constructor
for each shape, and `wellFormed_of_mem_tokenizeChars` says that there are no more.

A well-formed token delimits itself: wherever its text stands before a blank or before the end, that
text and nothing else is read as one token (`WellFormed.tokenizeChars_append`).  Its kind follows
from its text alone (`WellFormed.ofText_text`).
-/

set_option autoImplicit false

namespace ApiReference

/-! ## The shapes of tokens -/

/-- What may stand behind the quote that opens a literal, up to the quote that closes it.  A
backslash takes the next character with it. -/
inductive LiteralTail (quote : Char) : List Char → Prop where
  | close : LiteralTail quote [quote]
  | plain {character : Char} {tail : List Char} (notQuote : character ≠ quote)
      (sameLine : character ≠ '\n') (notEscape : character ≠ '\\') :
      LiteralTail quote tail → LiteralTail quote (character :: tail)
  | escaped {character : Char} {tail : List Char} (sameLine : character ≠ '\n') :
      LiteralTail quote tail → LiteralTail quote ('\\' :: character :: tail)

/-- The characters that open neither a word nor a number nor a literal and are no blanks. -/
def isMark (character : Char) : Bool :=
  !isBlank character && !isWordStart character && !character.isDigit && !isQuote character

namespace Token

/-- The token is a symbol for a literal or a block comment that its text leaves open. -/
def isUnterminated (token : Token) : Bool :=
  token.kind = .symbol &&
    match token.text.toList with
    | '/' :: '*' :: _ => true
    | first :: _ => isQuote first
    | [] => false

/-- The shapes of the tokens whose text is complete. -/
inductive WellFormed : Token → Prop where
  | word {first : Char} {following : List Char} (start : isWordStart first = true)
      (parts : ∀ character ∈ following, isWordPart character = true) :
      WellFormed (ofWord (String.ofList (first :: following)))
  | number {first : Char} {following : List Char} (start : first.isDigit = true)
      (parts : ∀ character ∈ following, isNumberPart character = true) :
      WellFormed ⟨String.ofList (first :: following), .number⟩
  | literal {quote : Char} {tail : List Char} (start : isQuote quote = true)
      (closes : LiteralTail quote tail) :
      WellFormed ⟨String.ofList (quote :: tail), .stringLiteral⟩
  | scope : WellFormed scope
  | mark {mark : Char} (plain : isMark mark = true) :
      WellFormed ⟨String.singleton mark, kindOfMark mark⟩

end Token

/-! ## Kinds that a shape excludes -/

/-- A word is an identifier or has the kind of a reserved word. -/
theorem Token.kind_ofWord_ne {kind : Kind} (noIdentifier : kind ≠ .identifier)
    (noReserved : ∀ reserved ∈ Kind.reservedWords, reserved.2 ≠ kind) (word : String) :
    (ofWord word).kind ≠ kind := by
  unfold ofWord Kind.reserved?
  cases known : Kind.reservedWords.lookup word with
  | none => simpa using noIdentifier.symm
  | some reserved =>
    obtain ⟨before, after, spelled, _⟩ := List.lookup_eq_some_iff.mp known
    exact noReserved (word, reserved) (by rw [spelled]; simp)

theorem kindOfMark_ne {kind : Kind}
    (noMark : kind ∉ [.openParen, .closeParen, .comma, .semicolon, .pound, .symbol]) (mark : Char) :
    Token.kindOfMark mark ≠ kind := by
  rintro rfl
  unfold Token.kindOfMark at noMark
  split at noMark <;> simp at noMark

/-! ## Classes of characters exclude one another -/

theorem eq_of_isBlank {character : Char} (blank : isBlank character = true) :
    character = ' ' ∨ character = '\t' ∨ character = '\n' ∨ character = '\r' ∨
      character = '\x0c' := by
  simpa [isBlank, or_assoc] using blank

theorem eq_of_isQuote {character : Char} (quote : isQuote character = true) :
    character = '"' ∨ character = '\'' := by
  simpa [isQuote] using quote

theorem not_isNumberPart_of_isBlank {character : Char} (blank : isBlank character = true) :
    isNumberPart character = false := by
  rcases eq_of_isBlank blank with rfl | rfl | rfl | rfl | rfl <;> decide

theorem not_isWordPart_of_isBlank {character : Char} (blank : isBlank character = true) :
    isWordPart character = false := by
  have noNumber := not_isNumberPart_of_isBlank blank
  simp only [isNumberPart, Bool.or_eq_false_iff] at noNumber
  exact noNumber.1

theorem not_isBlank_of_isWordStart {character : Char} (start : isWordStart character = true) :
    isBlank character = false := by
  by_contra blank
  have noPart := not_isWordPart_of_isBlank (Bool.not_eq_false _ ▸ blank)
  rw [isWordPart_of_isWordStart start] at noPart
  contradiction

theorem isWordPart_of_isDigit {character : Char} (digit : character.isDigit = true) :
    isWordPart character = true := by
  simp [isWordPart, Char.isAlphanum, digit]

theorem not_isQuote_of_isWordPart {character : Char} (part : isWordPart character = true) :
    isQuote character = false := by
  by_contra quote
  rcases eq_of_isQuote (Bool.not_eq_false _ ▸ quote) with rfl | rfl <;>
    exact absurd part (by decide)

theorem not_isBlank_of_isDigit {character : Char} (digit : character.isDigit = true) :
    isBlank character = false := by
  by_contra blank
  have noPart := not_isWordPart_of_isBlank (Bool.not_eq_false _ ▸ blank)
  rw [isWordPart_of_isDigit digit] at noPart
  contradiction

theorem code_of_isDigit {character : Char} (digit : character.isDigit = true) :
    48 ≤ character.toNat ∧ character.toNat ≤ 57 :=
  Char.isDigit_iff_toNat.mp digit

/-- The ASCII letters stand in two runs. -/
theorem code_of_isAlpha {character : Char} (letter : character.isAlpha = true) :
    (65 ≤ character.toNat ∧ character.toNat ≤ 90) ∨
      (97 ≤ character.toNat ∧ character.toNat ≤ 122) := by
  have cases : (character.isUpper || character.isLower) = true := letter
  rcases (Bool.or_eq_true _ _).mp cases with upper | lower
  · have bounds : 'A'.val ≤ character.val ∧ character.val ≤ 'Z'.val := of_decide_eq_true upper
    exact .inl bounds
  · have bounds : 'a'.val ≤ character.val ∧ character.val ≤ 'z'.val := by
      have both : (decide ('a'.val ≤ character.val) && decide (character.val ≤ 'z'.val)) = true :=
        lower
      simpa using both
    exact .inr bounds

theorem not_isWordStart_of_isDigit {character : Char} (digit : character.isDigit = true) :
    isWordStart character = false := by
  have code := code_of_isDigit digit
  by_contra start
  have word : (character.isAlpha || decide (character = '_')) = true := Bool.not_eq_false _ ▸ start
  rcases (Bool.or_eq_true _ _).mp word with letter | underscore
  · have codes := code_of_isAlpha letter
    omega
  · obtain rfl : character = '_' := of_decide_eq_true underscore
    exact absurd digit (by decide)

/-! ## Where a text may end -/

/-- The text is at its end, or a blank comes next. -/
def Detached (rest : List Char) : Prop :=
  ∀ character ∈ rest.head?, isBlank character = true

theorem detached_nil : Detached [] := by
  simp [Detached]

theorem detached_space (rest : List Char) : Detached (' ' :: rest) := by
  intro character head
  obtain rfl : ' ' = character := by simpa using head
  rfl

/-- The two characters together are `::` or open a comment. -/
def joinsMark (mark next : Char) : Bool :=
  (mark = '/' && (next = '/' || next = '*')) || (mark = ':' && next = ':')

theorem not_joinsMark_of_isBlank (mark : Char) {next : Char} (blank : isBlank next = true) :
    joinsMark mark next = false := by
  rcases eq_of_isBlank blank with rfl | rfl | rfl | rfl | rfl <;> simp [joinsMark]

/-- A run of a class goes on behind a text as far as the class does. -/
theorem span_append {inClass : Char → Bool} {body rest : List Char}
    (inside : ∀ character ∈ body, inClass character = true)
    (outside : ∀ next ∈ rest.head?, inClass next = false) :
    (body ++ rest).takeWhile inClass = body ∧ (body ++ rest).dropWhile inClass = rest := by
  rw [List.takeWhile_append_of_pos inside, List.dropWhile_append_of_pos inside]
  cases rest with
  | nil => simp
  | cons character rest => simp [outside character rfl]

/-- The token starts as a word does. -/
def Token.startsWord (token : Token) : Bool :=
  token.text.toList.head?.any isWordStart

/-- What follows a token does not continue it. -/
structure Token.EndsBefore (token : Token) (rest : List Char) : Prop where
  word : token.startsWord = true → ∀ next ∈ rest.head?, isWordPart next = false
  number : token.kind = .number → ∀ next ∈ rest.head?, isNumberPart next = false

theorem startsWord_ofList_cons (first : Char) (following : List Char) (kind : Kind) :
    Token.startsWord ⟨String.ofList (first :: following), kind⟩ = isWordStart first := by
  simp [Token.startsWord]

/-- What follows a token neither continues it nor joins it to another mark. -/
structure Token.Delimited (token : Token) (rest : List Char) : Prop
    extends token.EndsBefore rest where
  mark : ∀ mark, token.text = String.singleton mark →
    ∀ next ∈ rest.head?, joinsMark mark next = false

theorem Detached.delimited {rest : List Char} (detached : Detached rest) (token : Token) :
    token.Delimited rest where
  word _ next head := not_isWordPart_of_isBlank (detached next head)
  number _ next head := not_isNumberPart_of_isBlank (detached next head)
  mark mark _ next head := not_joinsMark_of_isBlank mark (detached next head)

/-! ## Literals -/

/-- What is taken up to a closing quote is the tail of a literal. -/
theorem literalTail_of_closed {quote : Char} {text : List Char}
    (closed : (quotedTail quote text).closed = true) :
    LiteralTail quote (quotedTail quote text).taken := by
  fun_induction quotedTail quote text with
  | case1 => simp at closed
  | case2 => exact .close
  | case3 => simp at closed
  | case4 => simp at closed
  | case5 => simp at closed
  | case6 escaped beyond sameLine _ _ ih => exact .escaped sameLine (ih closed)
  | case7 first following notQuote sameLine notEscape ih =>
    exact .plain notQuote sameLine notEscape (ih closed)

theorem LiteralTail.getLast? {quote : Char} {tail : List Char} (closes : LiteralTail quote tail) :
    tail.getLast? = some quote := by
  induction closes with
  | close => rfl
  | plain _ _ _ _ ih => rw [List.getLast?_cons, ih]; rfl
  | escaped _ _ ih => rw [List.getLast?_cons, List.getLast?_cons, ih]; rfl

/-- Reading behind the opening quote takes the tail of the literal and no more. -/
theorem LiteralTail.quotedTail_append {quote : Char} {tail : List Char}
    (closes : LiteralTail quote tail) (start : isQuote quote = true) (rest : List Char) :
    quotedTail quote (tail ++ rest) = ⟨tail, rest, true⟩ := by
  induction closes with
  | close =>
    rw [quotedTail.eq_def]
    simp
  | plain notQuote sameLine notEscape _ ih =>
    rw [quotedTail.eq_def]
    simp only [List.cons_append, if_neg notQuote, if_neg sameLine, if_neg notEscape, ih]
    rfl
  | escaped sameLine _ ih =>
    have notQuote : '\\' ≠ quote := by
      rcases eq_of_isQuote start with rfl | rfl <;> decide
    have notLine : '\\' ≠ '\n' := by decide
    rw [quotedTail.eq_def]
    simp only [List.cons_append, if_neg notQuote, if_neg notLine, if_true, if_neg sameLine, ih]
    rfl

/-! ## Lexemes -/

theorem lexeme_of_isWordStart {first : Char} (start : isWordStart first = true)
    (following : List Char) :
    lexeme first following =
      ⟨some (Token.ofWord (String.ofList (first :: following.takeWhile isWordPart))),
        following.dropWhile isWordPart⟩ := by
  simp [lexeme, start, not_isBlank_of_isWordStart start]

theorem lexeme_of_isDigit {first : Char} (start : first.isDigit = true) (following : List Char) :
    lexeme first following =
      ⟨some ⟨String.ofList (first :: following.takeWhile isNumberPart), .number⟩,
        following.dropWhile isNumberPart⟩ := by
  simp [lexeme, start, not_isBlank_of_isDigit start, not_isWordStart_of_isDigit start]

theorem lexeme_of_isQuote {quote : Char} (start : isQuote quote = true) (following : List Char) :
    lexeme quote following = quotedLexeme quote following := by
  rcases eq_of_isQuote start with rfl | rfl <;> rfl

theorem lexeme_of_isMark {mark : Char} (plain : isMark mark = true) (following : List Char) :
    lexeme mark following = markLexeme mark following := by
  simp only [isMark, Bool.and_eq_true, Bool.not_eq_true'] at plain
  obtain ⟨⟨⟨noBlank, noWord⟩, noDigit⟩, noQuote⟩ := plain
  simp [lexeme, noBlank, noWord, noDigit, noQuote]

theorem class_of_character (character : Char) :
    isBlank character = true ∨ isWordStart character = true ∨ character.isDigit = true ∨
      isQuote character = true ∨ isMark character = true := by
  simp only [isMark, Bool.and_eq_true, Bool.not_eq_true', ← Bool.not_eq_true]
  grind

theorem tokenizeChars_blank {blank : Char} (isBlank : isBlank blank = true)
    (following : List Char) : tokenizeChars (blank :: following) = tokenizeChars following := by
  rw [tokenizeChars]
  simp [lexeme, isBlank]

/-- A mark is a token of its own unless it joins what follows. -/
theorem markLexeme_single {mark : Char} {rest : List Char}
    (single : ∀ next ∈ rest.head?, joinsMark mark next = false) :
    markLexeme mark rest = ⟨some ⟨String.singleton mark, Token.kindOfMark mark⟩, rest⟩ := by
  unfold markLexeme
  split
  · exact absurd (single '/' rfl) (by decide)
  · exact absurd (single '*' rfl) (by decide)
  · exact absurd (single ':' rfl) (by decide)
  · rfl

/-- A mark opens a comment, is the first half of `::`, or does not join what follows. -/
theorem markLexeme_cases (mark : Char) (following : List Char) :
    (∃ comment, mark = '/' ∧ following = '/' :: comment) ∨
      (∃ body, mark = '/' ∧ following = '*' :: body) ∨
      (∃ rest, mark = ':' ∧ following = ':' :: rest) ∨
      ∀ next ∈ following.head?, joinsMark mark next = false := by
  cases following with
  | nil => simp
  | cons next rest => by_cases joins : joinsMark mark next = true <;> grind [joinsMark]

/-- Trimming the end keeps a first character that is not to be trimmed. -/
theorem trimEnd_cons {inClass : Char → Bool} {first : Char} (outside : inClass first = false)
    (following : List Char) :
    trimEnd inClass (first :: following) = first :: trimEnd inClass following := by
  simp only [trimEnd, List.reverse_cons, List.dropWhile_append]
  split
  · rename_i nothing
    rw [List.isEmpty_iff] at nothing
    simp [nothing, outside]
  · simp

/-- A text that opens with no colon has its kind from the class of its first character. -/
theorem Token.ofText_ofList_cons {first : Char} (noColon : first ≠ ':') (following : List Char) :
    ofText (String.ofList (first :: following)) =
      if isQuote first then ⟨String.ofList (first :: following), .stringLiteral⟩
      else if first.isDigit then ⟨String.ofList (first :: following), .number⟩
      else if isWordStart first then ofWord (String.ofList (first :: following))
      else if following.isEmpty then ⟨String.ofList (first :: following), kindOfMark first⟩
      else ⟨String.ofList (first :: following), .symbol⟩ := by
  unfold ofText
  rw [String.toList_ofList]
  split
  · contradiction
  · rename_i colons
    exact absurd (List.cons.inj colons).1 noColon
  · rename_i characters
    obtain ⟨rfl, rfl⟩ := List.cons.inj characters
    rfl

theorem isUnterminated_literal {quote : Char} (start : isQuote quote = true)
    (taken : List Char) :
    Token.isUnterminated ⟨String.ofList (trimEnd isSpace (quote :: taken)), .symbol⟩ = true := by
  have noSpace : isSpace quote = false := by
    rcases eq_of_isQuote start with rfl | rfl <;> decide
  have notSlash : quote ≠ '/' := by
    rcases eq_of_isQuote start with rfl | rfl <;> decide
  simp [Token.isUnterminated, trimEnd_cons noSpace, notSlash, start]

theorem isUnterminated_blockComment (body : List Char) :
    Token.isUnterminated ⟨String.ofList (trimEnd isSpace ('/' :: '*' :: body)), .symbol⟩ =
      true := by
  have slash : isSpace '/' = false := by decide
  have star : isSpace '*' = false := by decide
  simp [Token.isUnterminated, trimEnd_cons slash, trimEnd_cons star]

/-! ## Well-formed tokens delimit themselves -/

namespace Token.WellFormed

variable {token : Token}

/-- The text of a well-formed token is one lexeme, wherever it is delimited. -/
theorem lexeme_append (wellFormed : WellFormed token) :
    ∃ first following, token.text.toList = first :: following ∧
      ∀ rest, token.Delimited rest → lexeme first (following ++ rest) = ⟨some token, rest⟩ := by
  cases wellFormed with
  | @word first following start parts =>
    refine ⟨_, _, String.toList_ofList, fun rest delimited => ?_⟩
    have isWord : (ofWord (String.ofList (first :: following))).startsWord = true := by
      rw [ofWord, startsWord_ofList_cons, start]
    obtain ⟨taken, left⟩ := span_append parts (delimited.word isWord)
    rw [lexeme_of_isWordStart start, taken, left]
  | number start parts =>
    refine ⟨_, _, String.toList_ofList, fun rest delimited => ?_⟩
    obtain ⟨taken, left⟩ := span_append parts (delimited.number rfl)
    rw [lexeme_of_isDigit start, taken, left]
  | literal start closes =>
    refine ⟨_, _, String.toList_ofList, fun rest _ => ?_⟩
    rw [lexeme_of_isQuote start, quotedLexeme, closes.quotedTail_append start rest]
    rfl
  | scope => exact ⟨':', [':'], rfl, fun rest _ => rfl⟩
  | mark plain =>
    refine ⟨_, [], String.toList_singleton _, fun rest delimited => ?_⟩
    rw [lexeme_of_isMark plain, List.nil_append, markLexeme_single (delimited.mark _ rfl)]

/-- Where a well-formed token is delimited, it is read, and reading goes on behind it. -/
theorem tokenizeChars_append_of_delimited (wellFormed : WellFormed token) {rest : List Char}
    (delimited : token.Delimited rest) :
    tokenizeChars (token.text.toList ++ rest) = token :: tokenizeChars rest := by
  obtain ⟨first, following, spelled, reads⟩ := wellFormed.lexeme_append
  rw [spelled, List.cons_append, tokenizeChars, reads rest delimited]
  rfl

/-- The text of a well-formed token is read as this token, and reading goes on behind it. -/
theorem tokenizeChars_append (wellFormed : WellFormed token) {rest : List Char}
    (detached : Detached rest) :
    tokenizeChars (token.text.toList ++ rest) = token :: tokenizeChars rest :=
  wellFormed.tokenizeChars_append_of_delimited (detached.delimited token)

/-- The text of a well-formed token is read as this token alone. -/
theorem tokenize_text (wellFormed : WellFormed token) : tokenize token.text = [token] := by
  have whole := wellFormed.tokenizeChars_append detached_nil
  rwa [List.append_nil, tokenizeChars] at whole

theorem isWordPart_of_startsWord (wellFormed : WellFormed token) (word : token.startsWord = true) :
    ∀ character ∈ token.text.toList, isWordPart character = true := by
  cases wellFormed with
  | word start parts => simpa [isWordPart_of_isWordStart start] using parts
  | number start =>
    rw [startsWord_ofList_cons, not_isWordStart_of_isDigit start] at word
    contradiction
  | literal start =>
    rw [startsWord_ofList_cons] at word
    rcases eq_of_isQuote start with rfl | rfl <;> exact absurd word (by decide)
  | scope => exact absurd word (by decide)
  | mark plain =>
    rw [String.singleton_eq_ofList, startsWord_ofList_cons] at word
    simp [isMark, word] at plain

/-- A number is a digit and parts of a number. -/
theorem exists_of_number (wellFormed : WellFormed token) (number : token.kind = .number) :
    ∃ first following, token.text.toList = first :: following ∧ first.isDigit = true ∧
      ∀ character ∈ following, isNumberPart character = true := by
  cases wellFormed with
  | word => exact absurd number (kind_ofWord_ne (by decide) (by decide) _)
  | number start parts => exact ⟨_, _, String.toList_ofList, start, parts⟩
  | literal => contradiction
  | scope => contradiction
  | mark => exact absurd number (kindOfMark_ne (by decide) _)

theorem isNumberPart_of_number (wellFormed : WellFormed token) (number : token.kind = .number) :
    ∀ character ∈ token.text.toList, isNumberPart character = true := by
  obtain ⟨first, following, spelled, start, parts⟩ := wellFormed.exists_of_number number
  rw [spelled, List.forall_mem_cons]
  exact ⟨by simp [isNumberPart, isWordPart_of_isDigit start], parts⟩

/-- The kind of a well-formed token follows from its text. -/
theorem ofText_text (wellFormed : WellFormed token) : ofText token.text = token := by
  cases wellFormed with
  | @word first following start parts =>
    have noColon : first ≠ ':' := by
      rintro rfl
      exact absurd start (by decide)
    have noDigit : ¬ first.isDigit = true := fun digit =>
      absurd start (Bool.eq_false_iff.mp (not_isWordStart_of_isDigit digit))
    rw [text_ofWord, ofText_ofList_cons noColon,
      if_neg (Bool.eq_false_iff.mp (not_isQuote_of_isWordPart (isWordPart_of_isWordStart start))),
      if_neg noDigit, if_pos start]
  | @number first following start parts =>
    have noColon : first ≠ ':' := by
      rintro rfl
      exact absurd start (by decide)
    rw [ofText_ofList_cons noColon,
      if_neg (Bool.eq_false_iff.mp (not_isQuote_of_isWordPart (isWordPart_of_isDigit start))),
      if_pos start]
  | @literal quote tail start closes =>
    have noColon : quote ≠ ':' := by
      rintro rfl
      exact absurd start (by decide)
    rw [ofText_ofList_cons noColon, if_pos start]
  | scope => rfl
  | @mark mark plain =>
    simp only [isMark, Bool.and_eq_true, Bool.not_eq_true'] at plain
    obtain ⟨⟨⟨_, noWord⟩, noDigit⟩, noQuote⟩ := plain
    by_cases colon : mark = ':'
    · subst colon
      rfl
    · rw [String.singleton_eq_ofList, ofText_ofList_cons colon]
      simp only [noWord, noDigit, noQuote, Bool.false_eq_true, if_false, List.isEmpty_nil, if_true]

end Token.WellFormed

/-! ## Tokens that are read are well-formed -/

/-- A lexeme that is not left open is well-formed. -/
theorem wellFormed_of_lexeme {first : Char} {following : List Char} {token : Token}
    (read : (lexeme first following).token? = some token) (ended : token.isUnterminated = false) :
    token.WellFormed := by
  rcases class_of_character first with blank | start | start | start | plain
  · simp [lexeme, blank] at read
  · rw [lexeme_of_isWordStart start] at read
    obtain rfl := Option.some.inj read
    exact .word start fun _ part => List.mem_takeWhile_imp part
  · rw [lexeme_of_isDigit start] at read
    obtain rfl := Option.some.inj read
    exact .number start fun _ part => List.mem_takeWhile_imp part
  · rw [lexeme_of_isQuote start, quotedLexeme] at read
    split at read
    · rename_i closed
      obtain rfl := Option.some.inj read
      exact .literal start (literalTail_of_closed closed)
    · obtain rfl := Option.some.inj read
      rw [isUnterminated_literal start] at ended
      contradiction
  · rw [lexeme_of_isMark plain] at read
    unfold markLexeme at read
    split at read
    · simp at read
    · rename_i body
      unfold blockCommentLexeme at read
      split at read
      · simp at read
      · obtain rfl := Option.some.inj read
        rw [isUnterminated_blockComment] at ended
        contradiction
    · obtain rfl := Option.some.inj read
      exact .scope
    · obtain rfl := Option.some.inj read
      exact .mark plain

/-- What is read from a text and not left open is well-formed. -/
theorem wellFormed_of_mem_tokenizeChars {text : List Char} {token : Token}
    (read : token ∈ tokenizeChars text) (ended : token.isUnterminated = false) :
    token.WellFormed := by
  fun_induction tokenizeChars text with
  | case1 => simp at read
  | case2 first following ih =>
    rcases List.mem_append.mp read with here | later
    · exact wellFormed_of_lexeme (Option.mem_toList.mp here) ended
    · exact ih later

/-! ## Reading piece by piece -/

/-- An ASCII word: letters, digits and underscores, of which the first is no digit. -/
def IsWord (text : String) : Prop :=
  text.toList.head?.any isWordStart = true ∧ text.toList.all isWordPart = true

instance (text : String) : Decidable (IsWord text) :=
  inferInstanceAs (Decidable (_ ∧ _))

/-- The text can stand between the double quotes of a literal. -/
def IsLiteralContent (text : String) : Prop :=
  LiteralTail '"' (text.toList ++ ['"'])

/-- A text is the content of a literal if reading it up to a closing quote takes all of it. -/
theorem isLiteralContent_iff {text : String} :
    IsLiteralContent text ↔
      quotedTail '"' (text.toList ++ ['"']) = ⟨text.toList ++ ['"'], [], true⟩ := by
  constructor
  · intro isContent
    have read := isContent.quotedTail_append (by decide) []
    rwa [List.append_nil] at read
  · intro read
    have closes := literalTail_of_closed (congrArg QuotedTail.closed read)
    rwa [read] at closes

instance (text : String) : Decidable (IsLiteralContent text) :=
  decidable_of_iff' _ isLiteralContent_iff

/-- The literal with a given content. -/
def Token.quoted (content : String) : Token :=
  ⟨"\"" ++ content ++ "\"", .stringLiteral⟩

theorem Token.toList_text_quoted (content : String) :
    (quoted content).text.toList = '"' :: (content.toList ++ ['"']) := by
  simp only [quoted, String.toList_append]
  rfl

theorem tokenizeChars_word {text : String} (word : IsWord text) {next : Char}
    (ended : isWordPart next = false) (rest : List Char) :
    tokenizeChars (text.toList ++ next :: rest) =
      Token.ofWord text :: tokenizeChars (next :: rest) := by
  obtain ⟨start, parts⟩ := word
  obtain ⟨first, following, spelled⟩ : ∃ first following, text.toList = first :: following :=
    List.exists_cons_of_ne_nil fun nothing => by simp [nothing] at start
  rw [spelled] at start parts
  have partsLater : ∀ character ∈ following, isWordPart character = true :=
    (List.forall_mem_cons.mp (List.all_eq_true.mp parts)).2
  have ends : ∀ character ∈ (next :: rest).head?, isWordPart character = false :=
    fun character isNext => Option.some.inj isNext ▸ ended
  obtain ⟨taken, left⟩ := span_append partsLater ends
  rw [spelled, List.cons_append, tokenizeChars, lexeme_of_isWordStart start, taken, left, ← spelled,
    String.ofList_toList]
  rfl

theorem tokenizeChars_mark {mark next : Char} (plain : isMark mark = true)
    (apart : joinsMark mark next = false) (rest : List Char) :
    tokenizeChars (mark :: next :: rest) =
      ⟨String.singleton mark, Token.kindOfMark mark⟩ :: tokenizeChars (next :: rest) := by
  have single : ∀ character ∈ (next :: rest).head?, joinsMark mark character = false :=
    fun character isNext => Option.some.inj isNext ▸ apart
  rw [tokenizeChars, lexeme_of_isMark plain, markLexeme_single single]
  rfl

theorem tokenizeChars_scope (rest : List Char) :
    tokenizeChars (':' :: ':' :: rest) = Token.scope :: tokenizeChars rest := by
  rw [tokenizeChars]
  rfl

theorem tokenizeChars_quoted {content : String} (isContent : IsLiteralContent content)
    (rest : List Char) :
    tokenizeChars ('"' :: (content.toList ++ '"' :: rest)) =
      Token.quoted content :: tokenizeChars rest := by
  have start : isQuote '"' = true := by decide
  have spelled : String.ofList ('"' :: (content.toList ++ ['"'])) = (Token.quoted content).text := by
    rw [← Token.toList_text_quoted, String.ofList_toList]
  rw [List.append_cons, tokenizeChars, lexeme_of_isQuote start, quotedLexeme,
    isContent.quotedTail_append start rest, if_pos rfl, spelled]
  rfl

end ApiReference
