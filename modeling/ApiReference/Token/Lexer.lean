import ApiReference.Token.Basic

/-!
# Reading tokens from text

One forward pass turns any text into tokens; there is no text it refuses.  `lexeme` looks at the
first character and decides what is read there: a blank or a comment yields no token, everything
else yields one.  `tokenize` repeats this until nothing is left, and `lexeme_rest_length` is why it
ends.

Text that no rule accepts becomes a symbol.  That is a quoted literal which does not end on its line
and a block comment which does not end at all; such a symbol loses the white space at its end.  A
backslash inside a literal takes the next character with it, but never a line feed.
-/

namespace ApiReference

set_option autoImplicit false

/-! ## Quoted literals -/

/-- What stands behind an opening quote: the characters taken, those left, and whether the closing
quote is among the characters taken. -/
structure QuotedTail where
  taken : List Char
  rest : List Char
  closed : Bool
deriving DecidableEq, Repr

/-- The same tail with characters taken before it. -/
def QuotedTail.after (earlier : List Char) (tail : QuotedTail) : QuotedTail :=
  { tail with taken := earlier ++ tail.taken }

/-- Read behind an opening quote up to the same quote, the end of the line or the end of the text.
A backslash with no character of the line behind it is left standing. -/
def quotedTail (quote : Char) : List Char → QuotedTail
  | [] => ⟨[], [], false⟩
  | first :: following =>
    if first = quote then ⟨[first], following, true⟩
    else if first = '\n' then ⟨[], first :: following, false⟩
    else if first = '\\' then
      match following with
      | [] => ⟨[], [first], false⟩
      | escaped :: beyond =>
        if escaped = '\n' then ⟨[], first :: escaped :: beyond, false⟩
        else (quotedTail quote beyond).after [first, escaped]
    else (quotedTail quote following).after [first]

/-! ## Comments -/

/-- What stands behind the first end of a block comment. -/
def afterBlockComment? : List Char → Option (List Char)
  | [] => none
  | [_] => none
  | first :: second :: following =>
    if first = '*' ∧ second = '/' then some following
    else afterBlockComment? (second :: following)

/-! ## Lexemes -/

/-- What one step reads: at most one token, and the text it leaves. -/
structure Lexeme where
  token? : Option Token
  rest : List Char
deriving DecidableEq, Repr

/-- The lexeme that opens with a quote. -/
def quotedLexeme (quote : Char) (following : List Char) : Lexeme :=
  let tail := quotedTail quote following
  let text := quote :: tail.taken
  if tail.closed then ⟨some ⟨String.ofList text, .stringLiteral⟩, tail.rest⟩
  else ⟨some ⟨String.ofList (trimEnd isSpace text), .symbol⟩, tail.rest⟩

/-- The lexeme that opens with the start of a block comment. -/
def blockCommentLexeme (body : List Char) : Lexeme :=
  match afterBlockComment? body with
  | some rest => ⟨none, rest⟩
  | none => ⟨some ⟨String.ofList (trimEnd isSpace ('/' :: '*' :: body)), .symbol⟩, []⟩

/-- The lexeme that opens with a mark. -/
def markLexeme (mark : Char) (following : List Char) : Lexeme :=
  match mark, following with
  | '/', '/' :: comment => ⟨none, comment.dropWhile (· ≠ '\n')⟩
  | '/', '*' :: body => blockCommentLexeme body
  | ':', ':' :: rest => ⟨some Token.scope, rest⟩
  | _, _ => ⟨some ⟨String.singleton mark, Token.kindOfMark mark⟩, following⟩

/-- The lexeme at the head of a text. -/
def lexeme (first : Char) (following : List Char) : Lexeme :=
  if isBlank first then ⟨none, following⟩
  else if isWordStart first then
    ⟨some (Token.ofWord (String.ofList (first :: following.takeWhile isWordPart))),
      following.dropWhile isWordPart⟩
  else if first.isDigit then
    ⟨some ⟨String.ofList (first :: following.takeWhile isNumberPart), .number⟩,
      following.dropWhile isNumberPart⟩
  else if isQuote first then quotedLexeme first following
  else markLexeme first following

/-! ## Every step shortens the text -/

/-- Nothing is lost behind a quote: what is taken and what is left make up the text. -/
theorem quotedTail_append (quote : Char) (text : List Char) :
    (quotedTail quote text).taken ++ (quotedTail quote text).rest = text := by
  fun_induction quotedTail quote text <;> simp_all [QuotedTail.after]

theorem quotedTail_rest_length (quote : Char) (text : List Char) :
    (quotedTail quote text).rest.length ≤ text.length := by
  have whole := congrArg List.length (quotedTail_append quote text)
  simp only [List.length_append] at whole
  omega

theorem afterBlockComment?_length {text rest : List Char}
    (found : afterBlockComment? text = some rest) : rest.length ≤ text.length := by
  fun_induction afterBlockComment? text with
  | case1 => simp at found
  | case2 => simp at found
  | case3 =>
    simp only [Option.some.injEq] at found
    subst found
    simp only [List.length_cons]
    omega
  | case4 first second following closes ih =>
    have := ih found
    simp only [List.length_cons] at this ⊢
    omega

theorem dropWhile_length_le (inClass : Char → Bool) (text : List Char) :
    (text.dropWhile inClass).length ≤ text.length :=
  (List.dropWhile_sublist inClass).length_le

theorem lexeme_rest_length (first : Char) (following : List Char) :
    (lexeme first following).rest.length ≤ following.length := by
  unfold lexeme
  split
  · exact Nat.le_refl _
  · split
    · exact dropWhile_length_le _ _
    · split
      · exact dropWhile_length_le _ _
      · split
        · unfold quotedLexeme
          dsimp only
          split <;> exact quotedTail_rest_length _ _
        · unfold markLexeme
          split
          · exact Nat.le_trans (dropWhile_length_le _ _) (Nat.le_succ _)
          · unfold blockCommentLexeme
            split
            · rename_i found
              exact Nat.le_trans (afterBlockComment?_length found) (Nat.le_succ _)
            · exact Nat.zero_le _
          · exact Nat.le_succ _
          · exact Nat.le_refl _

/-! ## The whole text -/

/-- The tokens of a list of characters. -/
def tokenizeChars : List Char → List Token
  | [] => []
  | first :: following =>
    (lexeme first following).token?.toList ++ tokenizeChars (lexeme first following).rest
termination_by text => text.length
decreasing_by
  exact Nat.lt_succ_of_le (lexeme_rest_length first following)

/-- The tokens of a text. -/
def tokenize (text : String) : List Token :=
  tokenizeChars text.toList

/-- Read a list of characters and put each token behind those that are there already. -/
def readOnto (tokens : List Token) : List Char → List Token
  | [] => tokens
  | first :: following =>
    readOnto (tokens ++ (lexeme first following).token?.toList) (lexeme first following).rest
termination_by text => text.length
decreasing_by
  exact Nat.lt_succ_of_le (lexeme_rest_length first following)

/-- Put the tokens of a text behind those that are there already. -/
def appendTokens (tokens : List Token) (text : String) : List Token :=
  readOnto tokens text.toList

end ApiReference
