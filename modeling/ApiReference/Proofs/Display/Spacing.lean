import ApiReference.Proofs.Display.Chains
import Mathlib.Data.List.Chain
import Mathlib.Logic.Function.Iterate

/-!
# Clean display texts

The display of a list goes through its tokens once.  Every token is either shown on its own or part
of one scope chain, and every round takes one such run off the list (`exists_runs`), so that no
token is left after as many rounds as there are runs (`ReadInRuns.ends`).  This holds of all tokens;
a scope chain may open with `::`, end with it or be nothing else.

Spaces are written by two rules, behind a qualifier and between texts that would touch, and neither
of them knows what the other has written.  They never put two spaces into the same place, because a
text that would touch what is written does not follow a space.  So the display is the texts of the
pieces that are not empty, with one space or none between two neighbours (`textOf_eq_spelledOut`).
If no token holds white space, there is no other in the display (`displayText_clean`).
-/

set_option autoImplicit false

namespace ApiReference

/-! ## Every token is shown once -/

/-- The tokens are a scope chain: segments and `::` take turns, and there is a `::`. -/
structure IsScopeChain (tokens : List Token) : Prop where
  scope : ∃ token ∈ tokens, token.isScope = true
  members : ∀ token ∈ tokens, token.isScope = true ∨ token.isSegment = true
  turns : tokens.IsChain fun left right => left.isScope ≠ right.isScope

/-- The chain that tokens spell. -/
def ScopeChain.ofTokens (tokens : List Token) : ScopeChain :=
  ⟨(tokens.filter Token.isSegment).map Token.text, tokens.getLast?.any Token.isScope⟩

/-- Tokens that are shown in one go, and what is written for them. -/
structure DisplayRun where
  tokens : List Token
  piece : DisplayPiece
deriving DecidableEq, Repr

namespace DisplayRun

/-- A token that is shown on its own. -/
def ofToken (token : Token) : DisplayRun :=
  ⟨[token], .ofToken token⟩

/-- A scope chain. -/
def ofChain (tokens : List Token) : DisplayRun :=
  ⟨tokens, (ScopeChain.ofTokens tokens).displayText, false⟩

end DisplayRun

namespace Token

theorem not_isSegment_of_isScope {token : Token} (scope : token.isScope = true) :
    token.isSegment = false := by
  by_contra segment
  rw [isScope_of_isSegment (Bool.not_eq_false _ ▸ segment)] at scope
  contradiction

/-- Segments that are read are taken off the list with the `::` between and behind them. -/
theorem exists_of_readSegments (tokens : List Token) :
    ∃ taken, tokens = taken ++ (readSegments tokens).2 ∧
      (∀ token ∈ taken, token.isScope = true ∨ token.isSegment = true) ∧
      (taken.IsChain fun left right => left.isScope ≠ right.isScope) ∧
      (∀ first ∈ taken.head?, first.isScope = false) ∧
      (readSegments tokens).1 =
        ⟨(taken.filter isSegment).map text, taken.getLast?.all isScope⟩ := by
  fun_induction readSegments tokens with
  | case1 => exact ⟨[], by simp⟩
  | case2 token segment =>
    exact ⟨[token], by simp [segment, isScope_of_isSegment segment]⟩
  | case3 token segment next beyond scope chain rest read ih =>
    obtain ⟨taken, spelled, members, turns, opens, same⟩ := ih
    rw [read] at spelled same
    have noScope := isScope_of_isSegment segment
    have noSegment := not_isSegment_of_isScope scope
    refine ⟨token :: next :: taken, by simp [spelled], ?_, ?_, by simp [noScope], ?_⟩
    · simpa [segment, scope] using members
    · rw [List.isChain_cons_cons, List.isChain_cons]
      refine ⟨by simp [noScope, scope], fun first head => ?_, turns⟩
      rw [scope, opens first head]
      decide
    · have last : (token :: next :: taken).getLast?.all isScope = taken.getLast?.all isScope := by
        rw [List.getLast?_cons_cons, List.getLast?_cons]
        cases taken.getLast? with
        | none => simp [scope]
        | some last => simp
      dsimp only at same
      rw [last, same]
      simp [segment, noSegment]
  | case4 token segment next beyond noScope =>
    exact ⟨[token], by simp [segment, isScope_of_isSegment segment]⟩
  | case5 token following noSegment => exact ⟨[], by simp⟩

/-- Behind a `::`, the segments that are read make a chain with it. -/
theorem exists_scopeChain {scope : Token} (isScope : scope.isScope = true)
    (following : List Token) :
    ∃ taken, scope :: following = scope :: taken ++ (readSegments following).2 ∧
      IsScopeChain (scope :: taken) ∧
      ScopeChain.ofTokens (scope :: taken) = (readSegments following).1 := by
  obtain ⟨taken, spelled, members, turns, opens, same⟩ := exists_of_readSegments following
  have noSegment := not_isSegment_of_isScope isScope
  refine ⟨taken, by rw [List.cons_append, ← spelled], ⟨?_, ?_, ?_⟩, ?_⟩
  · exact ⟨scope, List.mem_cons_self, isScope⟩
  · exact List.forall_mem_cons.mpr ⟨.inl isScope, members⟩
  · rw [List.isChain_cons]
    refine ⟨fun first head => ?_, turns⟩
    rw [isScope, opens first head]
    decide
  · rw [same, ScopeChain.ofTokens, List.getLast?_cons]
    cases taken.getLast? with
    | none => simp [noSegment, isScope]
    | some last => simp [noSegment]

/-- Where a chain opens, it is taken off the list as a whole. -/
theorem exists_of_readChain {token : Token} {following : List Token}
    (opens : opensChain token following = true) :
    ∃ taken, token :: following = taken ++ (readChain token following).2 ∧ IsScopeChain taken ∧
      ScopeChain.ofTokens taken = (readChain token following).1 := by
  cases scope : token.isScope with
  | true =>
    obtain ⟨taken, spelled, chain, same⟩ := exists_scopeChain scope following
    rw [readChain, if_pos scope]
    exact ⟨token :: taken, spelled, chain, same⟩
  | false =>
    simp only [opensChain, scope, Bool.false_or, Bool.and_eq_true] at opens
    obtain ⟨segment, isNext⟩ := opens
    cases following with
    | nil => simp at isNext
    | cons next beyond =>
      have nextScope : next.isScope = true := by simpa using isNext
      obtain ⟨taken, spelled, chain, same⟩ := exists_scopeChain nextScope beyond
      have read : readChain token (next :: beyond) =
          (⟨token.text :: (readSegments beyond).1.segments, (readSegments beyond).1.endsInScope⟩,
            (readSegments beyond).2) := by
        simp [readChain, scope, readSegments, segment, nextScope]
      rw [read]
      refine ⟨token :: next :: taken, by rw [spelled]; rfl, ⟨?_, ?_, ?_⟩, ?_⟩
      · exact ⟨next, by simp, nextScope⟩
      · exact List.forall_mem_cons.mpr ⟨.inr segment, chain.members⟩
      · rw [List.isChain_cons_cons]
        exact ⟨by simp [scope, nextScope], chain.turns⟩
      · rw [← same, ScopeChain.ofTokens, ScopeChain.ofTokens, List.getLast?_cons_cons,
          List.filter_cons_of_pos segment, List.map_cons]

end Token

namespace DisplayPiece

/-- One round of the display: what is left of the tokens, and what is written then. -/
def readOn : List Token × List Char → List Token × List Char
  | ([], written) => ([], written)
  | (token :: following, written) =>
    if Token.opensChain token following then
      ((Token.readChain token following).2,
        writeAfter written ⟨(Token.readChain token following).1.displayText, false⟩)
    else (following, writeAfter written (ofToken token))

end DisplayPiece

/-- The runs are the tokens of a list, each of them once and in their order.  Every round of the
display takes one of the runs off the list and writes its piece. -/
structure ReadInRuns (tokens : List Token) (runs : List DisplayRun) : Prop where
  whole : runs.flatMap DisplayRun.tokens = tokens
  pieces : runs.map DisplayRun.piece = DisplayPiece.ofTokens tokens
  shapes : ∀ run ∈ runs, (∃ token, run = .ofToken token) ∨
    ∃ chain, IsScopeChain chain ∧ run = .ofChain chain
  rounds : ∀ count written, DisplayPiece.readOn^[count] (tokens, written) =
    ((runs.drop count).flatMap DisplayRun.tokens,
      ((runs.take count).map DisplayRun.piece).foldl DisplayPiece.writeAfter written)

namespace ReadInRuns

variable {tokens rest : List Token} {runs : List DisplayRun} {run : DisplayRun}

theorem nil : ReadInRuns [] [] where
  whole := rfl
  pieces := DisplayPiece.ofTokens.eq_1.symm
  shapes := by simp
  rounds count written := by
    simpa using Function.iterate_fixed (f := DisplayPiece.readOn) (x := ([], written)) rfl count

/-- A run is read before the others if the first round takes it off. -/
theorem cons (read : ReadInRuns rest runs) (spelled : tokens = run.tokens ++ rest)
    (piece : DisplayPiece.ofTokens tokens = run.piece :: DisplayPiece.ofTokens rest)
    (shape : (∃ token, run = .ofToken token) ∨ ∃ chain, IsScopeChain chain ∧ run = .ofChain chain)
    (round : ∀ written, DisplayPiece.readOn (tokens, written) =
      (rest, DisplayPiece.writeAfter written run.piece)) :
    ReadInRuns tokens (run :: runs) where
  whole := by rw [List.flatMap_cons, read.whole, spelled]
  pieces := by rw [List.map_cons, read.pieces, piece]
  shapes := List.forall_mem_cons.mpr ⟨shape, read.shapes⟩
  rounds count written := by
    cases count with
    | zero => simp [read.whole, spelled]
    | succ count =>
      rw [Function.iterate_succ_apply, round, read.rounds]
      rfl

end ReadInRuns

/-- Every token is shown once: on its own, or as part of one chain. -/
theorem exists_runs (tokens : List Token) : ∃ runs, ReadInRuns tokens runs := by
  fun_induction DisplayPiece.ofTokens tokens with
  | case1 => exact ⟨[], .nil⟩
  | case2 token following opens ih =>
    obtain ⟨runs, read⟩ := ih
    obtain ⟨taken, spelled, chain, same⟩ := Token.exists_of_readChain opens
    refine ⟨.ofChain taken :: runs, read.cons spelled ?_ (.inr ⟨taken, chain, rfl⟩) ?_⟩
    · rw [DisplayPiece.ofTokens, dif_pos opens, DisplayRun.ofChain, same]
    · intro written
      rw [DisplayPiece.readOn, if_pos opens, DisplayRun.ofChain, same]
  | case3 token following alone ih =>
    obtain ⟨runs, read⟩ := ih
    refine ⟨.ofToken token :: runs, read.cons rfl ?_ (.inl ⟨token, rfl⟩) ?_⟩
    · rw [DisplayPiece.ofTokens, dif_neg alone]
      rfl
    · intro written
      rw [DisplayPiece.readOn, if_neg alone]
      rfl

theorem DisplayPiece.length_ofTokens_le (tokens : List Token) :
    (ofTokens tokens).length ≤ tokens.length := by
  fun_induction ofTokens tokens with
  | case1 => exact Nat.le_refl 0
  | case2 token following opens ih =>
    exact Nat.succ_le_succ (Nat.le_trans ih (Token.readChain_rest_length opens))
  | case3 token following alone ih => exact Nat.succ_le_succ ih

/-- No token is left after as many rounds as there are runs, and all pieces are written then. -/
theorem ReadInRuns.ends {tokens : List Token} {runs : List DisplayRun}
    (read : ReadInRuns tokens runs) :
    runs.length ≤ tokens.length ∧
      DisplayPiece.readOn^[runs.length] (tokens, []) =
        ([], DisplayPiece.writeAll (DisplayPiece.ofTokens tokens)) := by
  constructor
  · rw [← List.length_map DisplayRun.piece, read.pieces]
    exact DisplayPiece.length_ofTokens_le tokens
  · rw [read.rounds, List.drop_length, List.take_length, read.pieces]
    rfl

/-! ## The texts of the pieces -/

theorem trimEnd_append {inClass : Char → Bool} {text trimmed : List Char}
    (outside : ∀ last ∈ text.getLast?, inClass last = false)
    (areInside : ∀ character ∈ trimmed, inClass character = true) :
    trimEnd inClass (text ++ trimmed) = text := by
  have reversed : text.reverse.dropWhile inClass = text.reverse := by
    rw [← List.head?_reverse] at outside
    cases characters : text.reverse with
    | nil => rfl
    | cons last before =>
      rw [characters] at outside
      exact List.dropWhile_cons_of_neg (by simp [outside last rfl])
  rw [trimEnd, List.reverse_append, List.dropWhile_append_of_pos, reversed, List.reverse_reverse]
  exact fun character member => areInside character (List.mem_reverse.mp member)

/-- The text of the token is not empty and holds no white space. -/
def Token.HasSolidText (token : Token) : Prop :=
  token.text ≠ "" ∧ ∀ character ∈ token.text.toList, isSpace character = false

-- found by itself, the second instance may go through all characters there are
instance (token : Token) : Decidable token.HasSolidText :=
  @instDecidableAnd _ _ inferInstance (List.decidableBAll _ _)

theorem mem_of_mem_intercalate {character : Char} {separator : List Char}
    {parts : List (List Char)} (member : character ∈ separator.intercalate parts) :
    character ∈ separator ∨ ∃ part ∈ parts, character ∈ part := by
  obtain ⟨part, isPart, inPart⟩ := List.mem_flatten.mp member
  rcases WrittenChain.mem_or_eq_of_mem_intersperse isPart with among | rfl
  · exact .inr ⟨part, among, inPart⟩
  · exact .inl inPart

theorem ScopeChain.mem_segments_of_mem_shownSegments {chain : ScopeChain} {segment : String}
    (member : segment ∈ chain.shownSegments) : segment ∈ chain.segments := by
  unfold shownSegments at member
  split at member
  · exact (List.dropLast_sublist _).mem member
  · exact member

/-- A chain is displayed in the characters of its segments and in colons. -/
theorem ScopeChain.mem_displayText {chain : ScopeChain} {character : Char}
    (member : character ∈ chain.displayText.toList) :
    character = ':' ∨ ∃ segment ∈ chain.segments, character ∈ segment.toList := by
  unfold displayText at member
  split at member
  · simp at member
  · rename_i last isLast
    split at member
    · rw [String.toList_intercalate] at member
      rcases mem_of_mem_intercalate member with colon | ⟨part, isPart, inPart⟩
      · exact .inl (by simpa using colon)
      · obtain ⟨segment, isSegment, rfl⟩ := List.mem_map.mp isPart
        have shown := (List.dropLast_sublist _).mem isSegment
        exact .inr ⟨segment, mem_segments_of_mem_shownSegments shown, inPart⟩
    · have shown := List.mem_of_getLast? isLast
      exact .inr ⟨last, mem_segments_of_mem_shownSegments shown, member⟩

namespace DisplayPiece

variable {piece next : DisplayPiece} {pieces front later : List DisplayPiece} {tokens : List Token}

/-- The text holds no white space, and no space is written behind an empty one. -/
structure IsSolid (piece : DisplayPiece) : Prop where
  noSpace : ∀ character ∈ piece.text.toList, isSpace character = false
  nothing : piece.text = "" → piece.spaceAfter = false

theorem isSolid_of_mem_ofTokens (solid : ∀ token ∈ tokens, token.HasSolidText)
    (member : piece ∈ ofTokens tokens) : piece.IsSolid := by
  obtain ⟨runs, read⟩ := exists_runs tokens
  rw [← read.pieces] at member
  rw [← read.whole] at solid
  obtain ⟨run, isRun, rfl⟩ := List.mem_map.mp member
  have solidRun : ∀ token ∈ run.tokens, token.HasSolidText := fun token inRun =>
    solid token (List.mem_flatMap.mpr ⟨run, isRun, inRun⟩)
  rcases read.shapes run isRun with ⟨token, rfl⟩ | ⟨chain, -, rfl⟩
  · obtain ⟨nonempty, noSpace⟩ := solidRun token List.mem_cons_self
    exact ⟨noSpace, fun empty => absurd empty nonempty⟩
  · refine ⟨fun character inText => ?_, fun _ => rfl⟩
    rcases ScopeChain.mem_displayText inText with rfl | ⟨segment, isSegment, inSegment⟩
    · decide
    · obtain ⟨token, inChain, rfl⟩ := List.mem_map.mp isSegment
      exact (solidRun token (List.mem_of_mem_filter inChain)).2 character inSegment

/-! ## Spaces between pieces -/

/-- What is written between two pieces that are not empty. -/
def spaceBetween (piece next : DisplayPiece) : List Char :=
  if piece.spaceAfter || wouldTouch piece.text.toList next.text.toList then [' '] else []

/-- The texts of the pieces with what is written between them. -/
def spelledOut : List DisplayPiece → List Char
  | [] => []
  | [piece] => piece.text.toList
  | piece :: next :: later =>
    piece.text.toList ++ (spaceBetween piece next ++ spelledOut (next :: later))

/-- The space that is written behind a piece by itself. -/
def ownSpace (piece : DisplayPiece) : List Char :=
  if piece.spaceAfter then [' '] else []

/-- Behind a piece, the next one is written with what stands between the two. -/
theorem writeAfter_append (nonempty : piece.text ≠ "") (next : DisplayPiece)
    (written : List Char) :
    writeAfter (written ++ piece.text.toList ++ ownSpace piece) next =
      written ++ piece.text.toList ++ spaceBetween piece next ++ next.text.toList ++
        ownSpace next := by
  have characters : piece.text.toList ≠ [] := by simpa using nonempty
  have space : isWordPart ' ' = false := by decide
  rw [writeAfter, spaceBetween, ownSpace, ownSpace]
  cases piece.spaceAfter with
  | true => simp [wouldTouch, space]
  | false => simp [wouldTouch_append_left characters]

/-- Writing pieces one by one comes to their text, but for a space at the end. -/
theorem foldl_writeAfter_eq (nonempty : ∀ other ∈ piece :: later, other.text ≠ "")
    (written : List Char) :
    ∃ spaces, (∀ character ∈ spaces, character = ' ') ∧
      later.foldl writeAfter (written ++ piece.text.toList ++ ownSpace piece) =
        written ++ spelledOut (piece :: later) ++ spaces := by
  induction later generalizing piece written with
  | nil =>
    refine ⟨ownSpace piece, ?_, by simp [spelledOut]⟩
    unfold ownSpace
    split <;> simp
  | cons next later ih =>
    obtain ⟨spaces, areSpaces, writes⟩ :=
      ih (fun other member => nonempty other (List.mem_cons_of_mem _ member))
        (written ++ piece.text.toList ++ spaceBetween piece next)
    refine ⟨spaces, areSpaces, ?_⟩
    rw [List.foldl_cons, writeAfter_append (nonempty piece List.mem_cons_self), writes, spelledOut]
    simp

/-- The text of pieces, without the space behind the last one. -/
def textOf (pieces : List DisplayPiece) : List Char :=
  trimEnd isSpace (writeAll pieces)

/-- The text of pieces ends as the last one does. -/
theorem getLast?_spelledOut (nonempty : ∀ piece ∈ pieces, piece.text ≠ "") :
    (spelledOut pieces).getLast? = pieces.getLast?.bind (·.text.toList.getLast?) := by
  fun_induction spelledOut pieces with
  | case1 => rfl
  | case2 piece => rfl
  | case3 piece next later ih =>
    have nonemptyLater : ∀ other ∈ next :: later, other.text ≠ "" :=
      fun other member => nonempty other (List.mem_cons_of_mem _ member)
    have characters : spelledOut (next :: later) ≠ [] := by
      have isNext : next.text.toList ≠ [] := by simpa using nonemptyLater next List.mem_cons_self
      cases later with
      | nil => exact isNext
      | cons other more => simp [spelledOut, isNext]
    rw [← List.append_assoc, List.getLast?_append_of_ne_nil _ characters, ih nonemptyLater,
      List.getLast?_cons_cons]

/-- Pieces that are not empty are written as their texts with what stands between them. -/
theorem textOf_of_nonempty (nonempty : ∀ piece ∈ pieces, piece.text ≠ "")
    (noSpace : ∀ piece ∈ pieces.getLast?, ∀ last ∈ piece.text.toList.getLast?,
      isSpace last = false) :
    textOf pieces = spelledOut pieces := by
  cases pieces with
  | nil => rfl
  | cons piece later =>
    obtain ⟨spaces, areSpaces, writes⟩ := foldl_writeAfter_eq nonempty []
    have first : writeAfter [] piece = [] ++ piece.text.toList ++ ownSpace piece := by
      rw [writeAfter, ownSpace]
      rfl
    rw [textOf, writeAll, List.foldl_cons, first, writes, List.nil_append]
    refine trimEnd_append (fun last isLast => ?_) fun character member => ?_
    · rw [getLast?_spelledOut nonempty, Option.mem_def, Option.bind_eq_some_iff] at isLast
      obtain ⟨final, isFinal, isLast⟩ := isLast
      exact noSpace final isFinal last isLast
    · rw [areSpaces character member]
      decide

/-- The pieces that are not empty. -/
def shown (pieces : List DisplayPiece) : List DisplayPiece :=
  pieces.filter (·.text ≠ "")

theorem mem_shown : piece ∈ shown pieces ↔ piece ∈ pieces ∧ piece.text ≠ "" := by
  rw [shown, List.mem_filter, decide_eq_true_eq]

/-- Nothing is written for empty pieces. -/
theorem foldl_writeAfter_shown_eq (solid : ∀ piece ∈ pieces, piece.IsSolid) (written : List Char) :
    (shown pieces).foldl writeAfter written = pieces.foldl writeAfter written := by
  induction pieces generalizing written with
  | nil => rfl
  | cons piece later ih =>
    obtain ⟨solidPiece, solidLater⟩ := List.forall_mem_cons.mp solid
    by_cases empty : piece.text = ""
    · have nothing : piece = ⟨"", false⟩ := by
        rw [← empty, ← solidPiece.nothing empty]
      rw [shown, List.filter_cons_of_neg (by simpa using empty), List.foldl_cons, nothing,
        writeAfter_nothing]
      exact ih solidLater written
    · rw [shown, List.filter_cons_of_pos (by simpa using empty), List.foldl_cons, List.foldl_cons]
      exact ih solidLater _

/-- The text of pieces is that of those that are not empty, with what stands between them. -/
theorem textOf_eq_spelledOut (solid : ∀ piece ∈ pieces, piece.IsSolid) :
    textOf pieces = spelledOut (shown pieces) := by
  have sameText : textOf (shown pieces) = textOf pieces := by
    rw [textOf, writeAll, foldl_writeAfter_shown_eq solid]
    rfl
  rw [← sameText]
  refine textOf_of_nonempty (fun piece member => (mem_shown.mp member).2) ?_
  intro piece isLast last inText
  have member := (mem_shown.mp (List.mem_of_getLast? isLast)).1
  exact (solid piece member).noSpace last (List.mem_of_getLast? inText)

theorem exists_spelledOut_cons (piece : DisplayPiece) (later : List DisplayPiece) :
    ∃ rest, spelledOut (piece :: later) = piece.text.toList ++ rest := by
  cases later with
  | nil => exact ⟨[], (List.append_nil _).symm⟩
  | cons next later => exact ⟨_, rfl⟩

theorem suffix_spelledOut (front : List DisplayPiece) (piece : DisplayPiece) :
    piece.text.toList <:+ spelledOut (front ++ [piece]) := by
  induction front with
  | nil => exact List.suffix_rfl
  | cons first between ih =>
    obtain ⟨next, later, spelled⟩ := List.exists_cons_of_ne_nil
      (List.append_ne_nil_of_right_ne_nil between (List.cons_ne_nil piece []))
    rw [List.cons_append, spelled, spelledOut, ← spelled, ← List.append_assoc]
    exact ih.trans (List.suffix_append _ _)

/-- The text of pieces falls into two wherever the pieces do, with what stands between them. -/
theorem spelledOut_append_cons (front : List DisplayPiece) (piece next : DisplayPiece)
    (later : List DisplayPiece) :
    spelledOut (front ++ piece :: next :: later) =
      spelledOut (front ++ [piece]) ++ spaceBetween piece next ++ spelledOut (next :: later) := by
  induction front with
  | nil => rw [List.nil_append, List.nil_append, spelledOut, spelledOut, List.append_assoc]
  | cons first between ih =>
    cases between with
    | nil => simp [spelledOut]
    | cons second more =>
      simp only [List.cons_append] at ih ⊢
      rw [spelledOut, ih, spelledOut]
      simp

end DisplayPiece

/-! ## Clean texts -/

/-- The text neither begins nor ends in white space, and nowhere does white space stand next to
white space. -/
structure IsCleanText (text : List Char) : Prop where
  head : ∀ first ∈ text.head?, isSpace first = false
  last : ∀ last ∈ text.getLast?, isSpace last = false
  single : text.IsChain fun left right => isSpace left = false ∨ isSpace right = false

/-- A text without white space is clean. -/
theorem isCleanText_of_noSpace {text : List Char}
    (noSpace : ∀ character ∈ text, isSpace character = false) : IsCleanText text where
  head first isFirst := noSpace first (List.mem_of_head? isFirst)
  last last isLast := noSpace last (List.mem_of_getLast? isLast)
  single := (List.pairwise_iff_forall_sublist.mpr fun both =>
    .inl (noSpace _ (both.mem List.mem_cons_self))).isChain

/-- Two clean texts make one with a space or nothing between them. -/
theorem IsCleanText.append {text other between : List Char} (clean : IsCleanText text)
    (cleanOther : IsCleanText other) (nonempty : text ≠ []) (nonemptyOther : other ≠ [])
    (one : between = [] ∨ between = [' ']) : IsCleanText (text ++ between ++ other) where
  head first isFirst := by
    rw [List.append_assoc, List.head?_append_of_ne_nil _ nonempty] at isFirst
    exact clean.head first isFirst
  last last isLast := by
    rw [List.getLast?_append_of_ne_nil _ nonemptyOther] at isLast
    exact cleanOther.last last isLast
  single := by
    have oneChain : between.IsChain fun left right =>
        isSpace left = false ∨ isSpace right = false := by
      rcases one with rfl | rfl <;> simp
    rw [List.isChain_append, List.isChain_append]
    refine ⟨⟨clean.single, oneChain, fun last isLast _ _ => .inl (clean.last last isLast)⟩,
      cleanOther.single, fun _ _ first isFirst => .inr (cleanOther.head first isFirst)⟩

namespace DisplayPiece

variable {piece : DisplayPiece} {pieces : List DisplayPiece} {tokens : List Token}

theorem isCleanText_spelledOut (nonempty : ∀ piece ∈ pieces, piece.text ≠ "")
    (noSpace : ∀ piece ∈ pieces, ∀ character ∈ piece.text.toList, isSpace character = false) :
    IsCleanText (spelledOut pieces) := by
  fun_induction spelledOut pieces with
  | case1 => exact isCleanText_of_noSpace (by simp)
  | case2 piece => exact isCleanText_of_noSpace (noSpace piece List.mem_cons_self)
  | case3 piece next later ih =>
    obtain ⟨nonemptyPiece, nonemptyLater⟩ := List.forall_mem_cons.mp nonempty
    obtain ⟨noSpacePiece, noSpaceLater⟩ := List.forall_mem_cons.mp noSpace
    have characters : piece.text.toList ≠ [] := by simpa using nonemptyPiece
    have charactersLater : spelledOut (next :: later) ≠ [] := by
      obtain ⟨rest, spelled⟩ := exists_spelledOut_cons next later
      simp [spelled, nonemptyLater next List.mem_cons_self]
    have oneOrNone : spaceBetween piece next = [] ∨ spaceBetween piece next = [' '] := by
      unfold spaceBetween
      split
      · exact .inr rfl
      · exact .inl rfl
    rw [← List.append_assoc]
    exact (isCleanText_of_noSpace noSpacePiece).append (ih nonemptyLater noSpaceLater) characters
      charactersLater oneOrNone

theorem isCleanText_textOf (solid : ∀ piece ∈ pieces, piece.IsSolid) :
    IsCleanText (textOf pieces) := by
  rw [textOf_eq_spelledOut solid]
  refine isCleanText_spelledOut (fun piece member => (mem_shown.mp member).2) ?_
  exact fun piece member => (solid piece (mem_shown.mp member).1).noSpace

theorem shown_append (pieces other : List DisplayPiece) :
    shown (pieces ++ other) = shown pieces ++ shown other :=
  List.filter_append pieces other

theorem shown_cons_of_nonempty (nonempty : piece.text ≠ "") (later : List DisplayPiece) :
    shown (piece :: later) = piece :: shown later :=
  List.filter_cons_of_pos (by simpa using nonempty)

/-- The text of pieces falls into two behind every piece, with what stands between it and the next
one that is not empty. -/
theorem textOf_append {front between behind : List DisplayPiece} {next : DisplayPiece}
    (solid : ∀ other ∈ front ++ piece :: (between ++ next :: behind), other.IsSolid)
    (nonempty : piece.text ≠ "") (empty : ∀ other ∈ between, other.text = "")
    (nonemptyNext : next.text ≠ "") :
    textOf (front ++ piece :: (between ++ next :: behind)) =
      textOf (front ++ [piece]) ++ spaceBetween piece next ++ textOf (next :: behind) := by
  have noneShown : shown between = [] := by
    rw [shown, List.filter_eq_nil_iff]
    exact fun other member => by simp [empty other member]
  have shownFront : shown (front ++ [piece]) = shown front ++ [piece] := by
    rw [shown_append, shown_cons_of_nonempty nonempty]
    rfl
  have shownBehind : shown (next :: behind) = next :: shown behind :=
    shown_cons_of_nonempty nonemptyNext behind
  have parts := solid
  rw [List.append_cons, List.forall_mem_append] at parts
  have solidBehind := (List.forall_mem_append.mp parts.2).2
  rw [textOf_eq_spelledOut solid, textOf_eq_spelledOut parts.1,
    textOf_eq_spelledOut solidBehind, List.append_cons, shown_append, shown_append between,
    noneShown, shownFront, shownBehind, List.nil_append, ← List.append_cons, spelledOut_append_cons]

/-- The text of pieces ends with the last one. -/
theorem suffix_textOf {front : List DisplayPiece}
    (solid : ∀ other ∈ front ++ [piece], other.IsSolid)
    (nonempty : piece.text ≠ "") : piece.text.toList <:+ textOf (front ++ [piece]) := by
  rw [textOf_eq_spelledOut solid, shown_append, shown_cons_of_nonempty nonempty]
  exact suffix_spelledOut (shown front) piece

/-- The text of pieces starts with the first one. -/
theorem prefix_textOf {later : List DisplayPiece} (solid : ∀ other ∈ piece :: later, other.IsSolid)
    (nonempty : piece.text ≠ "") : piece.text.toList <+: textOf (piece :: later) := by
  obtain ⟨rest, spelled⟩ := exists_spelledOut_cons piece (shown later)
  rw [textOf_eq_spelledOut solid, shown_cons_of_nonempty nonempty, spelled]
  exact List.prefix_append _ _

end DisplayPiece

/-- A display text is clean.  The tokens are read in runs, each run shown on its own or one scope
chain, and no token is left after the last of them.  If no token is empty or holds white space, the
text neither begins nor ends in white space and holds no two white spaces in a row; and between a
piece and the next one that is not empty there stands one space if the two would touch.  Where they
would not, one stands there only behind a qualifier. -/
theorem displayText_clean {tokens : List Token}
    (solid : ∀ token ∈ tokens, token.HasSolidText) :
    (∃ runs, ReadInRuns tokens runs ∧ runs.length ≤ tokens.length ∧
      DisplayPiece.readOn^[runs.length] (tokens, []) =
        ([], DisplayPiece.writeAll (DisplayPiece.ofTokens tokens)) ∧
      displayText tokens = String.ofList (DisplayPiece.textOf (runs.map DisplayRun.piece))) ∧
    IsCleanText (displayText tokens).toList ∧
    ∀ front piece between next behind,
      DisplayPiece.ofTokens tokens = front ++ piece :: (between ++ next :: behind) →
      piece.text ≠ "" → (∀ other ∈ between, other.text = "") → next.text ≠ "" →
      (displayText tokens).toList = DisplayPiece.textOf (front ++ [piece]) ++
        piece.spaceBetween next ++ DisplayPiece.textOf (next :: behind) ∧
      piece.text.toList <:+ DisplayPiece.textOf (front ++ [piece]) ∧
      next.text.toList <+: DisplayPiece.textOf (next :: behind) ∧
      (DisplayPiece.wouldTouch piece.text.toList next.text.toList = true →
        piece.spaceBetween next = [' ']) ∧
      (DisplayPiece.wouldTouch piece.text.toList next.text.toList = false →
        piece.spaceBetween next = piece.ownSpace) := by
  have solidPieces : ∀ piece ∈ DisplayPiece.ofTokens tokens, piece.IsSolid :=
    fun piece member => DisplayPiece.isSolid_of_mem_ofTokens solid member
  have text : (displayText tokens).toList = DisplayPiece.textOf (DisplayPiece.ofTokens tokens) :=
    String.toList_ofList
  refine ⟨?_, ?_, fun front piece between next behind pieces nonempty empty nonemptyNext => ?_⟩
  · obtain ⟨runs, read⟩ := exists_runs tokens
    refine ⟨runs, read, read.ends.1, read.ends.2, ?_⟩
    rw [read.pieces]
    rfl
  · rw [text]
    exact DisplayPiece.isCleanText_textOf solidPieces
  · rw [text, pieces]
    rw [pieces] at solidPieces
    have parts := solidPieces
    rw [List.append_cons, List.forall_mem_append] at parts
    have solidBehind := (List.forall_mem_append.mp parts.2).2
    refine ⟨DisplayPiece.textOf_append solidPieces nonempty empty nonemptyNext,
      DisplayPiece.suffix_textOf parts.1 nonempty,
      DisplayPiece.prefix_textOf solidBehind nonemptyNext, fun touch => ?_, fun apart => ?_⟩
    · rw [DisplayPiece.spaceBetween, touch, Bool.or_true, if_pos rfl]
    · rw [DisplayPiece.spaceBetween, apart, Bool.or_false, DisplayPiece.ownSpace]

/-- Two words that a chain without text stands between, behind a qualifier and before a number. -/
theorem displayText_clean_emptyChain :
    (∀ token ∈ tokenize "const :: a A:: :: b & 5 x", token.HasSolidText) ∧
      IsCleanText (displayText (tokenize "const :: a A:: :: b & 5 x")).toList ∧
      (displayText (tokenize "const :: a A:: :: b & 5 x")).toList =
        DisplayPiece.textOf [⟨"const", true⟩, ⟨"a", false⟩] ++ [' '] ++
          DisplayPiece.textOf [⟨"b", false⟩, ⟨"&", false⟩, ⟨"5", false⟩, ⟨"x", false⟩] := by
  have solid : ∀ token ∈ tokenize "const :: a A:: :: b & 5 x", token.HasSolidText := by
    decide +kernel
  obtain ⟨-, clean, between⟩ := displayText_clean solid
  obtain ⟨text, -, -, touching, -⟩ := between [⟨"const", true⟩] ⟨"a", false⟩ [⟨"", false⟩]
    ⟨"b", false⟩ [⟨"&", false⟩, ⟨"5", false⟩, ⟨"x", false⟩] (by decide +kernel) (by decide)
    (by decide) (by decide)
  rw [touching (by decide)] at text
  exact ⟨solid, clean, text⟩

end ApiReference
