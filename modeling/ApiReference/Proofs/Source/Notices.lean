import ApiReference.Proofs.Source.Arguments
import ApiReference.Proofs.Source.Places
import ApiReference.Proofs.Token.WellFormed
import Mathlib.Data.List.TakeWhile

/-!
# Notices of exceptions

A line that notifies of an exception is read for the arguments of the first call on it.  If that is
the notice itself, the exception that is recorded carries the two literals; if any parenthesis
stands before the notice, its own literals are not looked at (`notifiedException?_notice`).

A literal loses all quotes at its ends, those of its content included, so that the exception shows
what the literal says exactly where its content neither begins nor ends in a quote
(`mem_exceptionsOf_scanSource_notice_iff`).
-/

set_option autoImplicit false

namespace ApiReference

/-! ## Quotes -/

section Trimming

variable {inClass : Char → Bool} {text : List Char}

theorem dropWhile_eq_self_iff_head? :
    text.dropWhile inClass = text ↔ text.head?.any inClass = false := by
  rw [List.dropWhile_eq_self_iff]
  cases text with
  | nil => simp
  | cons first following => simp

theorem trimEnd_eq_self_iff :
    trimEnd inClass text = text ↔ text.getLast?.any inClass = false := by
  rw [trimEnd, List.reverse_eq_iff, dropWhile_eq_self_iff_head?, List.head?_reverse]

theorem length_trimEnd_le (inClass : Char → Bool) (text : List Char) :
    (trimEnd inClass text).length ≤ text.length := by
  rw [trimEnd, List.length_reverse]
  exact (List.dropWhile_sublist inClass).length_le.trans_eq List.length_reverse

/-- Trimming takes nothing off exactly where neither end is to be trimmed. -/
theorem trimBoth_eq_self_iff :
    trimBoth inClass text = text ↔
      text.head?.any inClass = false ∧ text.getLast?.any inClass = false := by
  rw [← dropWhile_eq_self_iff_head?, ← trimEnd_eq_self_iff, trimBoth]
  constructor
  · intro unchanged
    have sameLength : text.length ≤ (text.dropWhile inClass).length := by
      conv_lhs => rw [← unchanged]
      exact length_trimEnd_le inClass _
    have front : text.dropWhile inClass = text :=
      (List.dropWhile_suffix inClass).eq_of_length_le sameLength
    rw [front] at unchanged
    exact ⟨front, unchanged⟩
  · rintro ⟨front, back⟩
    rw [front, back]

/-- What encloses a text and is to be trimmed makes no difference. -/
theorem trimBoth_enclosed {opening closing : Char} (trimsOpening : inClass opening = true)
    (trimsClosing : inClass closing = true) :
    trimBoth inClass (opening :: (text ++ [closing])) = trimBoth inClass text := by
  have atEnd : ∀ part, trimEnd inClass (part ++ [closing]) = trimEnd inClass part := by
    intro part
    rw [trimEnd, List.reverse_append, List.reverse_singleton, List.singleton_append,
      List.dropWhile_cons_of_pos trimsClosing, trimEnd]
  rw [trimBoth, trimBoth, List.dropWhile_cons_of_pos trimsOpening, List.dropWhile_append]
  split
  · rename_i nothing
    rw [List.isEmpty_iff.mp nothing, List.dropWhile_cons_of_pos trimsClosing]
    rfl
  · exact atEnd _

end Trimming

/-- The text neither begins nor ends in a quote. -/
def HasBareEnds (text : String) : Prop :=
  text.toList.head?.any isQuote = false ∧ text.toList.getLast?.any isQuote = false

instance (text : String) : Decidable (HasBareEnds text) :=
  inferInstanceAs (Decidable (_ ∧ _))

/-- Together with its quotes, a literal loses those at the ends of its content. -/
theorem unquote_quoted (content : String) :
    unquote (Token.quoted content).text = unquote content := by
  rw [unquote, Token.toList_text_quoted, trimBoth_enclosed (by decide) (by decide), unquote]

theorem unquote_eq_self_iff {text : String} : unquote text = text ↔ HasBareEnds text := by
  rw [unquote, HasBareEnds, ← trimBoth_eq_self_iff, ← String.toList_inj, String.toList_ofList]

/-! ## The arguments of a notice -/

/-- The tokens of a notice with two literals. -/
def noticeCall (title message : String) : List Token :=
  [Token.ofWord notifyFunction, ⟨"(", .openParen⟩, Token.quoted title, ⟨",", .comma⟩,
    Token.quoted message, ⟨")", .closeParen⟩, ⟨";", .semicolon⟩]

/-- The exception that the first call of a line speaks of, whichever call it is. -/
def firstCallException? (line : List Token) : Option RaisedException :=
  match literalArgument? line 1, literalArgument? line 2 with
  | none, none => none
  | title?, message? =>
    some ⟨(title?.map unquote).getD variableText, (message?.map unquote).getD variableText⟩

theorem notifiedException?_eq (line : List Token) :
    notifiedException? line =
      if line.contains (Token.ofWord notifyFunction) then firstCallException? line else none := rfl

variable {before : List Token} {title message : String}

/-- In the parentheses of another call, no argument ends in the notice. -/
theorem lastOfArgument?_append_noticeCall (position : Nat) {depth : Nat} (inside : 1 ≤ depth)
    (previous : Token) :
    lastOfArgument? position depth previous (before ++ noticeCall title message) =
      lastOfArgument? position depth previous before := by
  induction before generalizing position depth previous with
  | nil =>
    have isWord : (Token.ofWord notifyFunction).kind = .identifier := by decide
    have notOutside : depth ≠ 0 := Nat.one_le_iff_ne_zero.mp inside
    simp [noticeCall, lastOfArgument?, endsArgument, depthBehind, Token.quoted, isWord, notOutside]
  | cons token later ih =>
    rw [List.cons_append, lastOfArgument?, lastOfArgument?]
    by_cases ends : endsArgument depth token = true
    · rw [if_pos ends, if_pos ends]
      split
      · rfl
      · split
        · rfl
        · rename_i goesOn
          exact ih _ (Nat.one_le_iff_ne_zero.mpr (not_or.mp goesOn).1) token
    · rw [if_neg ends, if_neg ends]
      exact ih _ (one_le_depthBehind inside (Bool.eq_false_iff.mpr ends)) token

/-- Behind a parenthesis, the arguments of the notice are not looked at. -/
theorem literalArgument?_append_noticeCall (paren : Token.hasKind .openParen before = true)
    (position : Nat) :
    literalArgument? (before ++ noticeCall title message) position =
      literalArgument? before position := by
  rw [literalArgument?, literalArgument?, List.dropWhile_append]
  cases opened : before.dropWhile (·.kind ≠ .openParen) with
  | nil =>
    rw [dropWhile_openParen_eq_nil_iff.mp opened] at paren
    contradiction
  | cons opening following =>
    rw [List.isEmpty_cons, if_neg Bool.false_ne_true, List.cons_append]
    dsimp only
    rw [lastOfArgument?_append_noticeCall position (Nat.le_refl 1)]

/-- Without a parenthesis before it, the notice is the first call of the line. -/
theorem literalArgument?_noticeCall (noParen : Token.hasKind .openParen before = false) :
    literalArgument? (before ++ noticeCall title message) 1 = some (Token.quoted title).text ∧
      literalArgument? (before ++ noticeCall title message) 2 =
        some (Token.quoted message).text := by
  rw [literalArgument?, literalArgument?, List.dropWhile_append,
    dropWhile_openParen_eq_nil_iff.mpr noParen]
  exact ⟨rfl, rfl⟩

/-- What a line notifies of that ends in a notice with two literals.  The literals count if no
parenthesis stands before the notice; otherwise the first call of the line speaks for itself. -/
theorem notifiedException?_notice (before : List Token) (title message : String) :
    notifiedException? (before ++ noticeCall title message) =
      if Token.hasKind .openParen before then firstCallException? before
      else some ⟨unquote title, unquote message⟩ := by
  have named : (before ++ noticeCall title message).contains (Token.ofWord notifyFunction) =
      true := by
    simp [noticeCall]
  rw [notifiedException?_eq, if_pos named, firstCallException?]
  cases paren : Token.hasKind .openParen before with
  | true =>
    rw [literalArgument?_append_noticeCall paren, literalArgument?_append_noticeCall paren]
    rfl
  | false =>
    obtain ⟨isTitle, isMessage⟩ := @literalArgument?_noticeCall before title message paren
    rw [isTitle, isMessage, ← unquote_quoted title, ← unquote_quoted message]
    rfl

/-! ## The exceptions of a function -/

/-- A list of exceptions together with another, unless it is listed already. -/
def noting (exceptions : List RaisedException) (exception : RaisedException) :
    List RaisedException :=
  if exception ∈ exceptions then exceptions else exceptions ++ [exception]

theorem mem_noting_iff {exceptions : List RaisedException} {exception other : RaisedException} :
    other ∈ noting exceptions exception ↔ other = exception ∨ other ∈ exceptions := by
  unfold noting
  split
  · rename_i listed
    exact ⟨Or.inr, fun either => either.elim (fun same => same ▸ listed) id⟩
  · rw [List.mem_append, List.mem_singleton, or_comm]

theorem Method.find?_raise (methods : List Method) (name : String) (exception : RaisedException) :
    (raise methods (name, exception)).find? (·.name = name) =
      (methods.find? (·.name = name)).map (·.addException exception) := by
  induction methods with
  | nil => rfl
  | cons first later ih =>
    rw [raise_cons]
    by_cases here : first.name = name
    · rw [if_pos here, List.find?_cons_of_pos (by simpa using here),
        List.find?_cons_of_pos (by simpa using here), Option.map_some]
    · rw [if_neg here, List.find?_cons_of_neg (by simpa using here),
        List.find?_cons_of_neg (by simpa using here), ih]

namespace Library

variable {library : Library} {home owner function : String} {earlier : List String} {line : String}

/-- The exceptions of the first method of a name. -/
def exceptionsOf (library : Library) (className method : String) : List RaisedException :=
  ((library.page? className).bind fun page =>
    page.methods.find? (·.name = method)).elim [] Method.exceptions

theorem exceptionsOf_foldl_apply (records : List SourceRecord) (library : Library)
    (className method : String) :
    (records.foldl SourceRecord.apply library).exceptionsOf className method =
      ((library.page? className).bind fun page =>
        ((records.filterMap (SourceRecord.raisedBy? className)).foldl Method.raise
          page.methods).find? (·.name = method)).elim [] Method.exceptions := by
  rw [exceptionsOf, page?_foldl_apply]
  cases found : library.page? className with
  | none => rfl
  | some page =>
    obtain ⟨-, rfl⟩ := page?_eq_some_iff.mp found
    rw [Option.map_some, Option.bind_some, Option.bind_some, foldl_onPage]

theorem exists_of_hasMethod (isMethod : library.hasMethod owner function = true) :
    ∃ page method, library.page? owner = some page ∧
      page.methods.find? (·.name = function) = some method := by
  unfold hasMethod at isMethod
  cases found : library.page? owner with
  | none =>
    rw [found] at isMethod
    cases isMethod
  | some page =>
    rw [found, Option.any_some, ClassPage.hasMethod, List.any_eq_true] at isMethod
    obtain ⟨method, first⟩ := Option.isSome_iff_exists.mp (List.find?_isSome.mpr isMethod)
    exact ⟨page, method, rfl, first⟩

theorem exceptionsOf_foldl_apply_of_nil {records : List SourceRecord}
    (raised : records.filterMap (SourceRecord.raisedBy? owner) = []) :
    (records.foldl SourceRecord.apply library).exceptionsOf owner function =
      library.exceptionsOf owner function := by
  rw [exceptionsOf_foldl_apply, raised]
  rfl

/-- An exception of a function is noted in the list of its first overload. -/
theorem exceptionsOf_foldl_apply_singleton {records : List SourceRecord}
    {exception : RaisedException} (isMethod : library.hasMethod owner function = true)
    (raised : records.filterMap (SourceRecord.raisedBy? owner) = [(function, exception)]) :
    (records.foldl SourceRecord.apply library).exceptionsOf owner function =
      noting (library.exceptionsOf owner function) exception := by
  obtain ⟨page, method, found, first⟩ := exists_of_hasMethod isMethod
  rw [exceptionsOf_foldl_apply, exceptionsOf, found, raised]
  simp only [Option.bind_some, List.foldl_cons, List.foldl_nil, Method.find?_raise, first,
    Option.map_some, Option.elim_some, Method.exceptions_addException]
  rfl

theorem scanSource_concat (known : (library.page? home).isSome = true) (earlier : List String)
    (line : String) :
    library.scanSource home (earlier ++ [line]) =
      (library.scanSource home earlier).readLine home (tokenize line) := by
  obtain ⟨page, found⟩ := Option.isSome_iff_exists.mp known
  rw [scanSource_eq, scanSource_eq, found]
  dsimp only
  rw [List.map_append, List.foldl_append]
  rfl

/-- A line that moves the scan records no exception, and others are noted with the function that is
open. -/
theorem raisedOn_of_current {place : SourcePlace} {line : List Token}
    (noPound : line.head?.any (·.kind = .pound) = false)
    (semicolon : Token.hasKind .semicolon line = true)
    (current : place.currentFunction? = some (owner, function)) :
    raisedOn place line =
      (notifiedException? line).toList.map (SourceRecord.raises owner function) := by
  unfold raisedOn
  rw [noPound, semicolon, current]
  cases notifiedException? line <;> rfl

/-- A line with a semicolon notes what it notifies of, if anything, with the function that is open
before it. -/
theorem exceptionsOf_scanSource_concat
    (current : (library.scanSource home earlier).place.currentFunction? = some (owner, function))
    (noPound : (tokenize line).head?.any (·.kind = .pound) = false)
    (semicolon : Token.hasKind .semicolon (tokenize line) = true) :
    (library.scanSource home (earlier ++ [line])).library.exceptionsOf owner function =
      (notifiedException? (tokenize line)).elim
        ((library.scanSource home earlier).library.exceptionsOf owner function)
        (noting ((library.scanSource home earlier).library.exceptionsOf owner function)) := by
  have known : (library.page? home).isSome = true := by
    by_contra unknown
    rw [scanSource_of_unknown (Option.not_isSome_iff_eq_none.mp unknown)] at current
    cases current
  have isMethod : (library.scanSource home earlier).library.hasMethod owner function = true := by
    rw [(sameOutline_scanSource library home earlier).hasMethod]
    exact hasMethod_of_currentFunction? current
  rw [scanSource_concat known, (readLine_eq home _ _).1,
    raisedOn_of_current noPound semicolon current]
  cases notifiedException? (tokenize line) with
  | none =>
    refine exceptionsOf_foldl_apply_of_nil ?_
    rw [Option.toList_none, List.map_nil, List.append_nil, raisedBy?_usedOn]
  | some exception =>
    refine exceptionsOf_foldl_apply_singleton isMethod ?_
    rw [List.filterMap_append, raisedBy?_usedOn]
    simp [SourceRecord.raisedBy?]

/-! ## Lines with a notice -/

theorem head?_append_noticeCall {before : List Token} (title message : String)
    (noPound : before.head?.any (·.kind = .pound) = false) :
    (before ++ noticeCall title message).head?.any (·.kind = .pound) = false := by
  cases before with
  | nil => rfl
  | cons first following => exact noPound

theorem hasKind_semicolon_append_noticeCall (before : List Token) (title message : String) :
    Token.hasKind .semicolon (before ++ noticeCall title message) = true := by
  rw [Token.hasKind, List.any_append, Bool.or_eq_true]
  exact Or.inr rfl

/-- What a line with a notice notes with the function that is open before it. -/
theorem exceptionsOf_scanSource_append_noticeCall {before : List Token} {title message : String}
    (spelled : tokenize line = before ++ noticeCall title message)
    (noPound : before.head?.any (·.kind = .pound) = false)
    (current : (library.scanSource home earlier).place.currentFunction? =
      some (owner, function)) :
    (library.scanSource home (earlier ++ [line])).library.exceptionsOf owner function =
      (if Token.hasKind .openParen before then firstCallException? before
        else some ⟨unquote title, unquote message⟩).elim
          ((library.scanSource home earlier).library.exceptionsOf owner function)
          (noting ((library.scanSource home earlier).library.exceptionsOf owner function)) := by
  rw [← notifiedException?_notice, ← spelled]
  refine exceptionsOf_scanSource_concat current ?_ ?_
  · rw [spelled]
    exact head?_append_noticeCall title message noPound
  · rw [spelled]
    exact hasKind_semicolon_append_noticeCall before title message

/-- A line with a notice, read while a function is open, notes its exception with the first overload
of that function, if no parenthesis stands before the notice.  Otherwise the first call of the line
is read in its place, whatever call it is. -/
theorem exceptionsOf_scanSource_notice {before : List Token} {title message : String}
    (spelled : tokenize line = before ++ noticeCall title message)
    (noPound : before.head?.any (·.kind = .pound) = false)
    (bareTitle : HasBareEnds title) (bareMessage : HasBareEnds message)
    (current : (library.scanSource home earlier).place.currentFunction? =
      some (owner, function)) :
    let exceptions := (library.scanSource home earlier).library.exceptionsOf owner function
    let exceptionsAfter :=
      (library.scanSource home (earlier ++ [line])).library.exceptionsOf owner function
    (Token.hasKind .openParen before = false →
        exceptionsAfter = noting exceptions ⟨title, message⟩) ∧
      (Token.hasKind .openParen before = true →
        exceptionsAfter = (firstCallException? before).elim exceptions (noting exceptions)) := by
  intro exceptions exceptionsAfter
  have noted := exceptionsOf_scanSource_append_noticeCall spelled noPound current
  rw [unquote_eq_self_iff.mpr bareTitle, unquote_eq_self_iff.mpr bareMessage] at noted
  constructor
  · intro noParen
    rwa [noParen] at noted
  · intro paren
    rwa [paren] at noted

/-- The notice behind `else` is the first call of its line. -/
theorem exceptionsOf_scanSource_notice_else :
    let library := ofMethods "Cog" ["Load"]
    let before := tokenize "else path =, problem ="
    let line := "else path =, problem = DoNotifyException(\"Bad\", \"Empty\");"
    tokenize line = before ++ noticeCall "Bad" "Empty" ∧
      before.head?.any (·.kind = .pound) = false ∧ HasBareEnds "Bad" ∧ HasBareEnds "Empty" ∧
      (library.scanSource "Cog" ["void Cog::Load()"]).place.currentFunction? =
        some ("Cog", "Load") ∧
      (library.scanSource "Cog" ["void Cog::Load()", line]).library.exceptionsOf "Cog" "Load" =
        [⟨"Bad", "Empty"⟩] := by
  intro library before line
  have spelled : tokenize line = before ++ noticeCall "Bad" "Empty" := by decide +kernel
  have noPound : before.head?.any (·.kind = .pound) = false := by decide +kernel
  have bareTitle : HasBareEnds "Bad" := by decide
  have bareMessage : HasBareEnds "Empty" := by decide
  have current : (library.scanSource "Cog" ["void Cog::Load()"]).place.currentFunction? =
      some ("Cog", "Load") := by decide +kernel
  have noParen : Token.hasKind .openParen before = false := by decide +kernel
  have nothingNoted : (library.scanSource "Cog" ["void Cog::Load()"]).library.exceptionsOf
      "Cog" "Load" = [] := by decide +kernel
  have noted :=
    (exceptionsOf_scanSource_notice spelled noPound bareTitle bareMessage current).1 noParen
  have nothingListed : noting [] ⟨"Bad", "Empty"⟩ = [⟨"Bad", "Empty"⟩] := by decide
  rw [nothingNoted, nothingListed] at noted
  exact ⟨spelled, noPound, bareTitle, bareMessage, current, noted⟩

/-- A notice behind a guard is not found: the guard is the first call of the line. -/
theorem exceptionsOf_scanSource_guarded :
    let library := ofMethods "Cog" ["Load"]
    let before := tokenize "if (missing)"
    let line := "if (missing) DoNotifyException(\"Bad\", \"Empty\");"
    Token.ofWord notifyFunction ∉ before ∧ Token.hasKind .semicolon before = false ∧
      before.head?.any (·.kind = .pound) = false ∧
      tokenize line = before ++ noticeCall "Bad" "Empty" ∧
      (library.scanSource "Cog" ["void Cog::Load()"]).place.currentFunction? =
        some ("Cog", "Load") ∧
      ⟨"Bad", "Empty"⟩ ∉
        (library.scanSource "Cog" ["void Cog::Load()", line]).library.exceptionsOf
          "Cog" "Load" := by
  decide +kernel

end Library

/-! ## Literals with any content -/

/-- The line that opens a function. -/
def functionLine (className function : String) : String :=
  "void " ++ className ++ "::" ++ function ++ "()"

/-- The line of a notice with two literals. -/
def noticeLine (title message : String) : String :=
  "DoNotifyException(\"" ++ title ++ "\", \"" ++ message ++ "\");"

theorem tokenize_functionLine {className function : String} (classWord : IsWord className)
    (functionWord : IsWord function) :
    tokenize (functionLine className function) =
      [Token.ofWord "void", Token.ofWord className, Token.scope, Token.ofWord function,
        ⟨"(", .openParen⟩, ⟨")", .closeParen⟩] := by
  have voidWord : IsWord "void" := by decide +kernel
  have spelled : (functionLine className function).toList =
      "void".toList ++ ' ' :: (className.toList ++ ':' :: ':' ::
        (function.toList ++ ['(', ')'])) := by
    simp [functionLine, String.toList_append]
  have parentheses : tokenizeChars ['(', ')'] = [⟨"(", .openParen⟩, ⟨")", .closeParen⟩] := by
    decide +kernel
  rw [tokenize, spelled, tokenizeChars_word voidWord (by decide), tokenizeChars_blank (by decide),
    tokenizeChars_word classWord (by decide), tokenizeChars_scope,
    tokenizeChars_word functionWord (by decide), parentheses]

theorem hasKind_semicolon_functionLine {className function : String} (classWord : IsWord className)
    (functionWord : IsWord function) :
    Token.hasKind .semicolon (tokenize (functionLine className function)) = false := by
  have noSemicolon (word : String) : (Token.ofWord word).kind ≠ .semicolon :=
    Token.kind_ofWord_ne (by decide) (by decide) word
  rw [tokenize_functionLine classWord functionWord]
  simp [Token.hasKind, noSemicolon, Token.scope]

theorem tokenize_noticeLine {title message : String} (titleContent : IsLiteralContent title)
    (messageContent : IsLiteralContent message) :
    tokenize (noticeLine title message) = noticeCall title message := by
  have notifyWord : IsWord notifyFunction := by decide +kernel
  have spelled : (noticeLine title message).toList =
      notifyFunction.toList ++ '(' :: '"' :: (title.toList ++ '"' :: ',' :: ' ' :: '"' ::
        (message.toList ++ '"' :: [')', ';'])) := by
    have beforeTitle : "DoNotifyException(\"".toList = notifyFunction.toList ++ ['(', '"'] := by
      decide +kernel
    have between : "\", \"".toList = ['"', ',', ' ', '"'] := by decide +kernel
    have behind : "\");".toList = ['"', ')', ';'] := by decide +kernel
    unfold noticeLine
    simp only [String.toList_append, beforeTitle, between, behind, List.append_assoc,
      List.cons_append, List.nil_append]
  have closing : tokenizeChars [')', ';'] = [⟨")", .closeParen⟩, ⟨";", .semicolon⟩] := by
    decide +kernel
  rw [tokenize, spelled, tokenizeChars_word notifyWord (by decide),
    tokenizeChars_mark (by decide) (by decide), tokenizeChars_quoted titleContent,
    tokenizeChars_mark (by decide) (by decide), tokenizeChars_blank (by decide),
    tokenizeChars_quoted messageContent, closing]
  rfl

namespace Library

variable {library : Library} {className function : String}

theorem currentFunction?_openFunction_self (isMethod : library.hasMethod className function = true)
    (place : SourcePlace) :
    (library.openFunction className function place).currentFunction? =
      some (className, function) := by
  obtain ⟨page, method, found, -⟩ := exists_of_hasMethod isMethod
  have meant : library.pageMeant? omittedBeginnings className = some page := by
    rw [pageMeant?_eq, List.findSome?_cons, found]
  rw [openFunction, meant, Option.map_some, (page?_eq_some_iff.mp found).2, Option.getD_some,
    if_pos isMethod]

/-- The line that opens a function leads the scan there. -/
theorem currentFunction?_placeBehind_functionLine (classWord : IsWord className)
    (functionWord : IsWord function) (isMethod : library.hasMethod className function = true)
    (place : SourcePlace) :
    (library.placeBehind place (tokenize (functionLine className function))).currentFunction? =
      some (className, function) := by
  have noScope (word : String) : (Token.ofWord word).kind ≠ .scopeResolution :=
    Token.kind_ofWord_ne (by decide) (by decide) word
  have noPound : (tokenize (functionLine className function)).head?.any (·.kind = .pound) =
      false := by
    rw [tokenize_functionLine classWord functionWord]
    rfl
  rw [placeBehind, noPound, hasKind_semicolon_functionLine classWord functionWord,
    tokenize_functionLine classWord functionWord]
  simp only [openFunctions, noScope, Token.scope, if_true, if_false, Bool.false_eq_true]
  exact currentFunction?_openFunction_self isMethod _

/-- A notice in a function notes its exception without the quotes at the ends of its literals,
whatever their contents are.  So it notes what the literals say exactly where neither content begins
or ends in a quote. -/
theorem mem_exceptionsOf_scanSource_notice_iff {title message : String}
    (classWord : IsWord className) (functionWord : IsWord function)
    (isMethod : library.hasMethod className function = true)
    (titleContent : IsLiteralContent title) (messageContent : IsLiteralContent message) :
    let exceptionsAfter := (library.scanSource className
      [functionLine className function, noticeLine title message]).library.exceptionsOf
        className function
    exceptionsAfter =
        noting (library.exceptionsOf className function) ⟨unquote title, unquote message⟩ ∧
      (⟨title, message⟩ ∈ exceptionsAfter ↔
        HasBareEnds title ∧ HasBareEnds message ∨
          ⟨title, message⟩ ∈ library.exceptionsOf className function) := by
  intro exceptionsAfter
  obtain ⟨page, -, found, -⟩ := exists_of_hasMethod isMethod
  have known : (library.page? className).isSome = true := by rw [found]; rfl
  have current : (library.scanSource className
      [functionLine className function]).place.currentFunction? = some (className, function) := by
    rw [place_scanSource known, List.map_singleton, List.foldl_cons, List.foldl_nil]
    exact currentFunction?_placeBehind_functionLine classWord functionWord isMethod _
  have nothingNoted : (library.scanSource className
      [functionLine className function]).library.exceptionsOf className function =
        library.exceptionsOf className function := by
    rw [library_scanSource, sourceRecords, found]
    refine exceptionsOf_foldl_apply_of_nil ?_
    rw [List.map_singleton, raised_recordsFrom_cons, raisedOn_of_noSemicolon
      (hasKind_semicolon_functionLine classWord functionWord)]
    rfl
  have noted : exceptionsAfter =
      noting (library.exceptionsOf className function) ⟨unquote title, unquote message⟩ := by
    have spelled : tokenize (noticeLine title message) = [] ++ noticeCall title message :=
      tokenize_noticeLine titleContent messageContent
    have noted := exceptionsOf_scanSource_append_noticeCall spelled rfl current
    rwa [nothingNoted] at noted
  refine ⟨noted, ?_⟩
  rw [noted, mem_noting_iff, RaisedException.mk.injEq, eq_comm (a := title),
    eq_comm (a := message), unquote_eq_self_iff, unquote_eq_self_iff]

/-- Escaped quotes, commas, parentheses and the openings of comments may stand in the literals. -/
theorem mem_exceptionsOf_scanSource_notice_iff_escaped :
    let library := ofMethods "Cog" ["Load"]
    let title := "No \\\"end\\\" (of 'x'), // yet"
    let message := "Add /* or \\\\"
    IsWord "Cog" ∧ IsWord "Load" ∧ library.hasMethod "Cog" "Load" = true ∧
      IsLiteralContent title ∧ IsLiteralContent message ∧
      ⟨title, message⟩ ∈ (library.scanSource "Cog"
        [functionLine "Cog" "Load", noticeLine title message]).library.exceptionsOf
          "Cog" "Load" := by
  intro library title message
  have classWord : IsWord "Cog" := by decide
  have functionWord : IsWord "Load" := by decide
  have isMethod : library.hasMethod "Cog" "Load" = true := by decide
  have titleContent : IsLiteralContent title := by decide +kernel
  have messageContent : IsLiteralContent message := by decide +kernel
  have bareEnds : HasBareEnds title ∧ HasBareEnds message := by decide +kernel
  have noted := (mem_exceptionsOf_scanSource_notice_iff classWord functionWord isMethod
    titleContent messageContent).2.mpr (Or.inl bareEnds)
  exact ⟨classWord, functionWord, isMethod, titleContent, messageContent, noted⟩

/-- A title that begins in a quote loses it. -/
theorem mem_exceptionsOf_scanSource_quoteAhead :
    let library := ofMethods "Cog" ["Load"]
    let title := "'path' was empty"
    let message := "Set it"
    IsWord "Cog" ∧ IsWord "Load" ∧ library.hasMethod "Cog" "Load" = true ∧
      IsLiteralContent title ∧ IsLiteralContent message ∧
      ⟨title, message⟩ ∉ (library.scanSource "Cog"
        [functionLine "Cog" "Load", noticeLine title message]).library.exceptionsOf
          "Cog" "Load" := by
  decide +kernel

end Library

end ApiReference
