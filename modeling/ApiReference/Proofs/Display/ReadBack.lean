import ApiReference.Proofs.Display.Spacing
import ApiReference.Proofs.Token.WellFormed

/-!
# Reading a display text back

The display writes the tokens a list shows one behind the other and puts a space only behind a
qualifier and between two that touch in letters, digits or underscores.  `spelledOut` is this text
for the tokens alone, and `displayText_eq` says that it is what the display writes.

The text reads back to the tokens it shows as long as each of them ends where it is written.  There
is one pair that it does not hold for: a number may end in a point, which is none of the characters
that the display keeps apart, and still goes on with a letter or a digit behind it
(`Token.runsOn`).  `displayText_readsBack` says that the text reads back exactly where no such pair
is shown.
-/

set_option autoImplicit false

namespace ApiReference

/-! ## Plain tokens -/

/-- A token as it is read from a text, but not for a literal or a comment that is left open, and
not for white space, a colon, a slash or a point. -/
structure Token.IsPlain (token : Token) : Prop where
  read : ∃ text, token ∈ tokenize text
  ended : token.isUnterminated = false
  symbol : token.kind = .symbol → ∃ mark, token.text = String.singleton mark ∧
    isSpace mark = false ∧ mark ≠ ':' ∧ mark ≠ '/' ∧ mark ≠ '.'

/-- Written without a space before the next token, the token would go on with it: it is a number
that ends in a point, and the next one opens with a letter, a digit or an underscore. -/
def Token.runsOn (token next : Token) : Bool :=
  token.kind = .number && token.text.toList.getLast? = some '.' &&
    next.text.toList.head?.any isWordPart

/-- No token runs on into the next one. -/
def ShownApart (shown : List Token) : Prop :=
  shown.IsChain fun token next => token.runsOn next = false

instance (shown : List Token) : Decidable (ShownApart shown) :=
  inferInstanceAs (Decidable (shown.IsChain _))

/-- The parts of a number lie between the spaces of ASCII and those beyond it. -/
theorem not_isSpace_of_isNumberPart {character : Char} (part : isNumberPart character = true) :
    isSpace character = false := by
  simp only [isNumberPart, isWordPart, Bool.or_eq_true, decide_eq_true_eq] at part
  rcases part with (alphanumeric | rfl) | rfl
  · have bounds : 48 ≤ character.toNat ∧ character.toNat ≤ 122 := by
      rcases (Bool.or_eq_true _ _).mp alphanumeric with letter | digit
      · have codes := code_of_isAlpha letter
        omega
      · have codes := code_of_isDigit digit
        omega
    simp only [isSpace, Bool.or_eq_false_iff, Bool.and_eq_false_iff, decide_eq_false_iff_not]
    omega
  · decide
  · decide

theorem exists_getLast?_of_parts {text : List Char} (nonempty : text ≠ [])
    (parts : ∀ character ∈ text, isNumberPart character = true) :
    ∃ last, text.getLast? = some last ∧ isSpace last = false :=
  ⟨text.getLast nonempty, List.getLast?_eq_some_getLast nonempty,
    not_isSpace_of_isNumberPart (parts _ (List.getLast_mem nonempty))⟩

theorem singleton_injective {mark other : Char}
    (same : String.singleton mark = String.singleton other) : mark = other := by
  simpa using congrArg String.toList same

namespace Token.WellFormed

variable {token : Token}

theorem eq_scope (wellFormed : WellFormed token) (isScope : token.isScope = true) :
    token = Token.scope := by
  rw [Token.isScope, decide_eq_true_eq] at isScope
  cases wellFormed with
  | word => exact absurd isScope (kind_ofWord_ne (by decide) (by decide) _)
  | number => contradiction
  | literal => contradiction
  | scope => rfl
  | mark => exact absurd isScope (kindOfMark_ne (by decide) _)

end Token.WellFormed

namespace Token.IsPlain

variable {token : Token}

theorem wellFormed (plain : token.IsPlain) : token.WellFormed := by
  obtain ⟨text, member⟩ := plain.read
  exact wellFormed_of_mem_tokenizeChars member plain.ended

theorem of_isMark {mark : Char} (plain : IsPlain ⟨String.singleton mark, kindOfMark mark⟩) :
    isSpace mark = false ∧ mark ≠ ':' ∧ mark ≠ '/' ∧ mark ≠ '.' := by
  by_cases symbol : kindOfMark mark = .symbol
  · obtain ⟨other, same, rest⟩ := plain.symbol symbol
    rwa [singleton_injective same]
  · unfold kindOfMark at symbol
    split at symbol <;> first | decide | contradiction

theorem scope : Token.scope.IsPlain where
  read := ⟨"::", by decide +kernel⟩
  ended := by decide
  symbol := fun symbol => by contradiction

/-- The last character of a plain token is not trimmed. -/
theorem exists_getLast? (plain : token.IsPlain) :
    ∃ last, token.text.toList.getLast? = some last ∧ isSpace last = false := by
  cases plain.wellFormed with
  | @word first following start parts =>
    rw [text_ofWord, String.toList_ofList]
    refine exists_getLast?_of_parts (List.cons_ne_nil _ _) (List.forall_mem_cons.mpr ⟨?_, ?_⟩)
    · simp [isNumberPart, isWordPart_of_isWordStart start]
    · exact fun character member => by simp [isNumberPart, parts character member]
  | @number first following start parts =>
    rw [String.toList_ofList]
    refine exists_getLast?_of_parts (List.cons_ne_nil _ _) (List.forall_mem_cons.mpr ⟨?_, parts⟩)
    simp [isNumberPart, isWordPart_of_isDigit start]
  | @literal quote tail start closes =>
    refine ⟨quote, ?_, ?_⟩
    · simp [List.getLast?_cons, closes.getLast?]
    · rcases eq_of_isQuote start with rfl | rfl <;> decide
  | scope => exact ⟨':', rfl, by decide⟩
  | @mark mark => exact ⟨mark, by simp, plain.of_isMark.1⟩

theorem text_ne_empty (plain : token.IsPlain) : token.text ≠ "" := by
  rintro empty
  obtain ⟨last, isLast, _⟩ := plain.exists_getLast?
  simp [empty] at isLast

/-- No plain token opens with a point, and none is a colon or a slash. -/
theorem head_ne (plain : token.IsPlain) {first : Char} {following : List Char}
    (spelled : token.text.toList = first :: following) :
    first ≠ '.' ∧ (following = [] → first ≠ ':' ∧ first ≠ '/') := by
  cases plain.wellFormed with
  | word start =>
    obtain ⟨rfl, _⟩ := List.cons.inj (String.toList_ofList.symm.trans spelled)
    refine ⟨?_, fun _ => ⟨?_, ?_⟩⟩ <;> exact fun same => absurd (same ▸ start) (by decide)
  | number start =>
    obtain ⟨rfl, _⟩ := List.cons.inj (String.toList_ofList.symm.trans spelled)
    refine ⟨?_, fun _ => ⟨?_, ?_⟩⟩ <;> exact fun same => absurd (same ▸ start) (by decide)
  | literal start =>
    obtain ⟨rfl, _⟩ := List.cons.inj (String.toList_ofList.symm.trans spelled)
    refine ⟨?_, fun _ => ⟨?_, ?_⟩⟩ <;> exact fun same => absurd (same ▸ start) (by decide)
  | scope =>
    obtain ⟨rfl, rfl⟩ := List.cons.inj spelled
    exact ⟨by decide, fun single => by contradiction⟩
  | @mark mark =>
    obtain ⟨rfl, _⟩ := List.cons.inj ((String.toList_singleton mark).symm.trans spelled)
    obtain ⟨_, noColon, noSlash, noPoint⟩ := plain.of_isMark
    exact ⟨noPoint, fun _ => ⟨noColon, noSlash⟩⟩

end Token.IsPlain

/-! ## The text of tokens alone -/

/-- What is written between two tokens. -/
def spaceBetween (token next : Token) : List Char :=
  if token.kind.isQualifier || DisplayPiece.wouldTouch token.text.toList next.text.toList
    then [' '] else []

/-- The texts of the tokens with what is written between them. -/
def spelledOut : List Token → List Char
  | [] => []
  | [token] => token.text.toList
  | token :: next :: later =>
    token.text.toList ++ (spaceBetween token next ++ spelledOut (next :: later))

theorem exists_spelledOut_cons (token : Token) (later : List Token) :
    ∃ rest, spelledOut (token :: later) = token.text.toList ++ rest := by
  cases later with
  | nil => exact ⟨[], (List.append_nil _).symm⟩
  | cons next later => exact ⟨_, rfl⟩

theorem spelledOut_map_ofToken (tokens : List Token) :
    DisplayPiece.spelledOut (tokens.map DisplayPiece.ofToken) = spelledOut tokens := by
  fun_induction spelledOut tokens with
  | case1 => rfl
  | case2 token => rfl
  | case3 token next later ih =>
    rw [List.map_cons, List.map_cons, DisplayPiece.spelledOut, ← List.map_cons, ih]
    rfl

theorem Shows.isPlain {tokens shown : List Token} (shows : Shows tokens shown)
    (plain : ∀ token ∈ tokens, token.IsPlain) : ∀ token ∈ shown, token.IsPlain := by
  intro token member
  rcases shows.mem_or_eq_scope member with among | rfl
  · exact plain token among
  · exact Token.IsPlain.scope

/-- The display of a list is the text of the tokens it shows. -/
theorem displayText_eq {tokens shown : List Token} (shows : Shows tokens shown)
    (plain : ∀ token ∈ tokens, token.IsPlain) :
    displayText tokens = String.ofList (spelledOut shown) := by
  have plainShown := shows.isPlain plain
  have written := DisplayPiece.foldl_writeAfter_ofTokens shows
    (fun token member => (plain token member).text_ne_empty) []
  have text : DisplayPiece.textOf (shown.map DisplayPiece.ofToken) = spelledOut shown := by
    rw [← spelledOut_map_ofToken]
    refine DisplayPiece.textOf_of_nonempty (List.forall_mem_map.mpr fun token member =>
      (plainShown token member).text_ne_empty) fun piece isLast last ends => ?_
    obtain ⟨token, member, rfl⟩ := List.mem_map.mp (List.mem_of_getLast? isLast)
    obtain ⟨character, isCharacter, noSpace⟩ := (plainShown token member).exists_getLast?
    rwa [← Option.some.inj (isCharacter.symm.trans ends)]
  rw [displayText, DisplayPiece.writeAll, written, ← text]
  rfl

/-! ## Reading the text -/

theorem tokenizeChars_spaceBetween (token next : Token) (rest : List Char) :
    tokenizeChars (spaceBetween token next ++ rest) = tokenizeChars rest := by
  unfold spaceBetween
  split
  · exact tokenizeChars_blank (by decide) rest
  · rfl

/-- Behind a token stands a space, or a character of the next one that it does not touch. -/
theorem head?_spaceBetween {token next : Token} (nonempty : next.text ≠ "") (rest : List Char) :
    ∀ character ∈ (spaceBetween token next ++ (next.text.toList ++ rest)).head?,
      character = ' ' ∨
        DisplayPiece.wouldTouch token.text.toList next.text.toList = false ∧
          character ∈ next.text.toList.head? := by
  have characters : next.text.toList ≠ [] := by simpa using nonempty
  intro character head
  unfold spaceBetween at head
  split at head
  · exact .inl (by simpa using head.symm)
  · rename_i glued
    rw [List.nil_append, List.head?_append_of_ne_nil _ characters] at head
    simp only [Bool.or_eq_true, not_or, Bool.not_eq_true] at glued
    exact .inr ⟨glued.2, head⟩

theorem isWordPart_or_of_apart {written next : List Char} {last character : Char}
    (apart : DisplayPiece.wouldTouch written next = false) (isLast : written.getLast? = some last)
    (head : character ∈ next.head?) : isWordPart last = false ∨ isWordPart character = false := by
  rw [DisplayPiece.wouldTouch, isLast, Option.mem_def.mp head] at apart
  exact Bool.and_eq_false_iff.mp apart

/-- A plain token ends where the next one is written, unless it runs on into it. -/
theorem Token.IsPlain.delimited {token next : Token} (plain : token.IsPlain)
    (plainNext : next.IsPlain) (ends : token.runsOn next = false) (rest : List Char) :
    token.Delimited (spaceBetween token next ++ (next.text.toList ++ rest)) where
  word word character head := by
    obtain ⟨last, isLast, _⟩ := plain.exists_getLast?
    rcases head?_spaceBetween plainNext.text_ne_empty rest character head with rfl | ⟨apart, head⟩
    · decide
    · have lastPart := plain.wellFormed.isWordPart_of_startsWord word last
        (List.mem_of_getLast? isLast)
      exact (isWordPart_or_of_apart apart isLast head).resolve_left (by simp [lastPart])
  number number character head := by
    obtain ⟨last, isLast, _⟩ := plain.exists_getLast?
    rcases head?_spaceBetween plainNext.text_ne_empty rest character head with rfl | ⟨apart, head⟩
    · decide
    · obtain ⟨first, following, spelled⟩ := List.exists_cons_of_ne_nil
        (by simpa using plainNext.text_ne_empty : next.text.toList ≠ [])
      obtain rfl : first = character := by simpa [spelled] using head
      rw [isNumberPart, Bool.or_eq_false_iff, decide_eq_false_iff_not]
      refine ⟨?_, (plainNext.head_ne spelled).1⟩
      rcases isWordPart_or_of_apart apart isLast head with noPart | outside
      · have point : last = '.' := by
          have lastPart := plain.wellFormed.isNumberPart_of_number number last
            (List.mem_of_getLast? isLast)
          simpa [isNumberPart, noPart] using lastPart
        simpa [runsOn, number, isLast, point, spelled] using ends
      · exact outside
  mark mark single character _ := by
    have spelled : token.text.toList = [mark] := by rw [single, String.toList_singleton]
    obtain ⟨noColon, noSlash⟩ := (plain.head_ne spelled).2 rfl
    simp [joinsMark, noColon, noSlash]

/-- A token that runs on into the next one is not read: the number goes on behind its point. -/
theorem Token.IsPlain.tokenizeChars_ne_of_runsOn {token next : Token} (plain : token.IsPlain)
    (goesOn : token.runsOn next = true) (rest : List Char) (tokens : List Token) :
    tokenizeChars (token.text.toList ++ (spaceBetween token next ++ (next.text.toList ++ rest))) ≠
      token :: tokens := by
  simp only [runsOn, Bool.and_eq_true, decide_eq_true_eq] at goesOn
  obtain ⟨⟨number, point⟩, opensPart⟩ := goesOn
  obtain ⟨first, following, spelled, start, parts⟩ := plain.wellFormed.exists_of_number number
  obtain ⟨character, more, nextSpelled, part⟩ : ∃ character more,
      next.text.toList = character :: more ∧ isWordPart character = true := by
    cases text : next.text.toList with
    | nil => simp [text] at opensPart
    | cons character more => exact ⟨character, more, rfl, by simpa [text] using opensPart⟩
  have glued : spaceBetween token next = [] := by
    have noQualifier : Kind.number.isQualifier = false := by decide
    have noPart : isWordPart '.' = false := by decide
    simp [spaceBetween, number, noQualifier, DisplayPiece.wouldTouch, point, noPart]
  have partOfNumber : isNumberPart character = true := by simp [isNumberPart, part]
  intro reads
  rw [glued, spelled, nextSpelled, List.nil_append, List.cons_append, tokenizeChars,
    lexeme_of_isDigit start] at reads
  have longer := congrArg (fun token => token.text.toList.length) (List.cons.inj reads).1
  simp only [String.toList_ofList, spelled, List.length_cons,
    List.takeWhile_append_of_pos parts, List.cons_append, List.takeWhile_cons, partOfNumber,
    if_true, List.length_append] at longer
  omega

/-- The text of tokens reads back to them exactly if none runs on into the next one. -/
theorem tokenizeChars_spelledOut_iff {shown : List Token}
    (plain : ∀ token ∈ shown, token.IsPlain) :
    tokenizeChars (spelledOut shown) = shown ↔ ShownApart shown := by
  fun_induction spelledOut shown with
  | case1 => simp [tokenizeChars, ShownApart]
  | case2 token =>
    have reads : tokenizeChars token.text.toList = [token] :=
      (plain token List.mem_cons_self).wellFormed.tokenize_text
    simp [ShownApart, reads]
  | case3 token next later ih =>
    have plainToken := plain token List.mem_cons_self
    have plainLater : ∀ other ∈ next :: later, other.IsPlain :=
      fun other member => plain other (List.mem_cons_of_mem _ member)
    obtain ⟨rest, spelled⟩ := exists_spelledOut_cons next later
    rw [ShownApart, List.isChain_cons_cons, ← ShownApart, ← ih plainLater]
    cases ends : token.runsOn next with
    | true =>
      simp only [Bool.true_eq_false, false_and, iff_false, spelled]
      exact plainToken.tokenizeChars_ne_of_runsOn ends rest _
    | false =>
      have delimited := plainToken.delimited (plainLater next List.mem_cons_self) ends rest
      rw [← spelled] at delimited
      rw [plainToken.wellFormed.tokenizeChars_append_of_delimited delimited,
        tokenizeChars_spaceBetween, List.cons.injEq]
      simp

/-- The display of plain tokens reads back to those it shows exactly if none of these runs on into
the next one. -/
theorem tokenize_displayText_iff {tokens shown : List Token} (shows : Shows tokens shown)
    (plain : ∀ token ∈ tokens, token.IsPlain) :
    tokenize (displayText tokens) = shown ↔ ShownApart shown := by
  rw [displayText_eq shows plain, tokenize, String.toList_ofList]
  exact tokenizeChars_spelledOut_iff (shows.isPlain plain)

/-! ## What reads back -/

/-- Plain tokens that are displayed as they are and read back. -/
structure IsReadable (tokens : List Token) : Prop where
  plain : ∀ token ∈ tokens, token.IsPlain
  noScope : ∀ token ∈ tokens, token.isScope = false
  apart : ShownApart tokens

theorem IsReadable.tokenize_displayText {tokens : List Token} (readable : IsReadable tokens) :
    tokenize (displayText tokens) = tokens :=
  (tokenize_displayText_iff (.of_noScope readable.noScope) readable.plain).mpr readable.apart

/-- A display text reads back.  A list of plain tokens shows one list, with its chains replaced, and
its display reads back to this list exactly if no number that ends in a point stands in it before a
word or a number.  Where there are no chains and no such number, the display is stable, and no other
such tokens are displayed alike. -/
theorem displayText_readsBack {tokens : List Token} (plain : ∀ token ∈ tokens, token.IsPlain) :
    ∃ shown, (∀ other, Shows tokens other ↔ other = shown) ∧
      (tokenize (displayText tokens) = shown ↔ ShownApart shown) ∧
      (IsReadable tokens → displayName (displayText tokens) = displayText tokens ∧
        ∀ others, IsReadable others → displayText others = displayText tokens →
          others = tokens) := by
  obtain ⟨shown, shows⟩ := exists_shows tokens fun token member =>
    (plain token member).wellFormed.eq_scope
  refine ⟨shown, fun other => ⟨fun also => also.unique shows, ?_⟩,
    tokenize_displayText_iff shows plain, fun readable => ⟨?_, fun others also same => ?_⟩⟩
  · rintro rfl
    exact shows
  · rw [displayName, readable.tokenize_displayText]
  · rw [← readable.tokenize_displayText, ← same, also.tokenize_displayText]

/-- The tokens of a text are plain if none is left open and its only symbol is a plain one. -/
theorem isPlain_of_mem_tokenize {text : String} {mark : Char}
    (plain : isSpace mark = false ∧ mark ≠ ':' ∧ mark ≠ '/' ∧ mark ≠ '.')
    (read : ∀ token ∈ tokenize text, token.isUnterminated = false ∧
      (token.kind = .symbol → token.text = String.singleton mark)) :
    ∀ token ∈ tokenize text, token.IsPlain := fun token member =>
  ⟨⟨text, member⟩, (read token member).1, fun symbol => ⟨mark, (read token member).2 symbol, plain⟩⟩

/-- An enumeration behind a qualifier, and the same tokens without chains in two layouts. -/
theorem displayText_readsBack_enumeration :
    (∀ token ∈ tokenize "const A::B::Enum 5. & 'x' y", token.IsPlain) ∧
      (∃ shown, (∀ other, Shows (tokenize "const A::B::Enum 5. & 'x' y") other ↔ other = shown) ∧
        (tokenize (displayText (tokenize "const A::B::Enum 5. & 'x' y")) = shown ↔
          ShownApart shown)) ∧
      IsReadable (tokenize "const x 5. & 'x' y") ∧ IsReadable (tokenize "const x/**/5.&'x'y") ∧
      displayName (displayText (tokenize "const x 5. & 'x' y")) =
        displayText (tokenize "const x 5. & 'x' y") ∧
      displayText (tokenize "const x/**/5.&'x'y") = displayText (tokenize "const x 5. & 'x' y") ∧
      tokenize "const x/**/5.&'x'y" = tokenize "const x 5. & 'x' y" := by
  have ampersand : isSpace '&' = false ∧ '&' ≠ ':' ∧ '&' ≠ '/' ∧ '&' ≠ '.' := by decide
  have chained : ∀ token ∈ tokenize "const A::B::Enum 5. & 'x' y", token.IsPlain :=
    isPlain_of_mem_tokenize ampersand (by decide +kernel)
  have spaced : IsReadable (tokenize "const x 5. & 'x' y") :=
    ⟨isPlain_of_mem_tokenize ampersand (by decide +kernel), by decide +kernel, by decide +kernel⟩
  have dense : IsReadable (tokenize "const x/**/5.&'x'y") :=
    ⟨isPlain_of_mem_tokenize ampersand (by decide +kernel), by decide +kernel, by decide +kernel⟩
  have same : displayText (tokenize "const x/**/5.&'x'y") =
      displayText (tokenize "const x 5. & 'x' y") := by decide +kernel
  obtain ⟨shown, unique, readsBack, _⟩ := displayText_readsBack chained
  obtain ⟨_, _, _, readable⟩ := displayText_readsBack spaced.plain
  exact ⟨chained, ⟨shown, unique, readsBack⟩, spaced, dense, (readable spaced).1, same,
    (readable spaced).2 _ dense same⟩

/-- A number that ends in a point swallows the word behind it: the display of such tokens reads back
to others, it is not stable, and it may be the display of others as well. -/
theorem displayText_pointBeforeWord :
    ((∀ token ∈ tokenize "5. const &", token.IsPlain) ∧
      Shows (tokenize "5. const &") (tokenize "5. const &") ∧
      tokenize (displayText (tokenize "5. const &")) ≠ tokenize "5. const &" ∧
      displayName (displayText (tokenize "5. const &")) ≠ displayText (tokenize "5. const &")) ∧
      (∀ token ∈ tokenize "5. x", token.IsPlain) ∧ (∀ token ∈ tokenize "5.x", token.IsPlain) ∧
      tokenize "5. x" ≠ tokenize "5.x" ∧
      displayText (tokenize "5. x") = displayText (tokenize "5.x") := by
  have ampersand : isSpace '&' = false ∧ '&' ≠ ':' ∧ '&' ≠ '/' ∧ '&' ≠ '.' := by decide
  refine ⟨⟨isPlain_of_mem_tokenize ampersand (by decide +kernel),
    .of_noScope (by decide +kernel), by decide +kernel, by decide +kernel⟩,
    isPlain_of_mem_tokenize ampersand (by decide +kernel),
    isPlain_of_mem_tokenize ampersand (by decide +kernel), by decide +kernel, by decide +kernel⟩

end ApiReference
