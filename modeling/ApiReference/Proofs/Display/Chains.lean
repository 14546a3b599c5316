import ApiReference.Display.Render
import Mathlib.Data.List.Basic

/-!
# Scope chains as they are written

A list of tokens is made up of scope chains and of tokens that stand alone.  `WrittenChain` is a
chain as it stands in a list, and `Shows` says which tokens a list shows: every chain is replaced by
the tokens it shows and everything else stays.  Every list shows exactly one other (`exists_shows`,
`Shows.unique`).

The display writes a chain in one go.  Writing the tokens it shows one after the other comes to the
same text, because `::` touches no word (`foldl_writeAfter_ofTokens`).
-/

set_option autoImplicit false

namespace ApiReference

/-! ## Chains -/

/-- A scope chain in a list of tokens: segments with `::` between them, and perhaps one more `::`
at either end. -/
structure WrittenChain where
  opensInScope : Bool
  segments : List Token
  endsInScope : Bool
deriving DecidableEq, Repr

namespace WrittenChain

/-- The token `::`, if it is written. -/
def scopeIf (written : Bool) : List Token :=
  if written then [Token.scope] else []

/-- The tokens of the chain. -/
def tokens (chain : WrittenChain) : List Token :=
  scopeIf chain.opensInScope ++
    (chain.segments.intersperse Token.scope ++ scopeIf chain.endsInScope)

/-- The segments that are left: a `::` at the end removes the last one. -/
def left (chain : WrittenChain) : List Token :=
  if chain.endsInScope then chain.segments.dropLast else chain.segments

/-- The tokens the chain shows: none if no segment is left, the segments before the last one if
there are any and the last one is `Enum`, and the last segment otherwise. -/
def shown (chain : WrittenChain) : List Token :=
  match chain.left.getLast? with
  | none => []
  | some last =>
    if last.text = "Enum" ∧ 2 ≤ chain.left.length then chain.left.dropLast.intersperse Token.scope
    else [last]

/-- The chain is a whole chain in front of the rest: it has a `::`, and the rest does not go on with
it. -/
structure StandsBefore (chain : WrittenChain) (rest : List Token) : Prop where
  segments : ∀ segment ∈ chain.segments, segment.isSegment = true
  scope : chain.opensInScope = true ∨ chain.endsInScope = true ∨ 2 ≤ chain.segments.length
  ending : chain.endsInScope = true → chain.segments ≠ []
  complete : if chain.segments = [] ∨ chain.endsInScope = true
    then ∀ next ∈ rest.head?, next.isSegment = false
    else ∀ next ∈ rest.head?, next.isScope = false

end WrittenChain

/-- The first list shows the second: its chains are replaced by what they show. -/
inductive Shows : List Token → List Token → Prop where
  | nil : Shows [] []
  | token {token : Token} {rest shown : List Token} (noScope : token.isScope = false)
      (single : token.isSegment = true → ∀ next ∈ rest.head?, next.isScope = false) :
      Shows rest shown → Shows (token :: rest) (token :: shown)
  | chain (chain : WrittenChain) {rest shown : List Token} (stands : chain.StandsBefore rest) :
      Shows rest shown → Shows (chain.tokens ++ rest) (chain.shown ++ shown)

/-! ## Reading a written chain -/

namespace Token

@[simp]
theorem isScope_scope : scope.isScope = true := rfl

@[simp]
theorem isSegment_scope : scope.isSegment = false := rfl

theorem isScope_of_isSegment {token : Token} (segment : token.isSegment = true) :
    token.isScope = false := by
  simp only [isSegment, Bool.or_eq_true, decide_eq_true_eq] at segment
  rcases segment with kind | kind <;> simp [isScope, kind]

theorem not_isQualifier_of_isSegment {token : Token} (segment : token.isSegment = true) :
    token.kind.isQualifier = false := by
  simp only [isSegment, Bool.or_eq_true, decide_eq_true_eq] at segment
  rcases segment with kind | kind <;> rw [kind] <;> decide

theorem opensChain_eq_false {token : Token} {rest : List Token} (noScope : token.isScope = false)
    (single : token.isSegment = true → ∀ next ∈ rest.head?, next.isScope = false) :
    opensChain token rest = false := by
  cases segment : token.isSegment with
  | false => simp [opensChain, noScope, segment]
  | true =>
    cases rest with
    | nil => simp [opensChain, noScope]
    | cons next beyond => simp [opensChain, noScope, single segment next rfl]

theorem readSegments_of_noSegment {rest : List Token}
    (outside : ∀ next ∈ rest.head?, next.isSegment = false) :
    readSegments rest = (⟨[], true⟩, rest) := by
  cases rest with
  | nil => rfl
  | cons next beyond => rw [readSegments.eq_def]; simp [outside next rfl]

/-- Reading takes the segments up to the end of the chain and nothing of the rest. -/
theorem readSegments_written {segments rest : List Token} {ends : Bool}
    (areSegments : ∀ segment ∈ segments, segment.isSegment = true) (nonempty : segments ≠ [])
    (complete : if ends = true then ∀ next ∈ rest.head?, next.isSegment = false
      else ∀ next ∈ rest.head?, next.isScope = false) :
    readSegments (segments.intersperse scope ++ (WrittenChain.scopeIf ends ++ rest)) =
      (⟨segments.map text, ends⟩, rest) := by
  induction segments with
  | nil => contradiction
  | cons segment later ih =>
    have isSegment := areSegments segment List.mem_cons_self
    cases later with
    | nil =>
      cases ends with
      | true =>
        have beyond := readSegments_of_noSegment (by simpa using complete)
        simp [WrittenChain.scopeIf, readSegments, isSegment, beyond]
      | false =>
        have outside : ∀ next ∈ rest.head?, next.isScope = false := by simpa using complete
        cases rest with
        | nil => simp [WrittenChain.scopeIf, readSegments, isSegment]
        | cons next beyond =>
          simp [WrittenChain.scopeIf, readSegments, isSegment, outside next rfl]
    | cons next more =>
      have later := ih (fun other member => areSegments other (List.mem_cons_of_mem _ member))
        (by simp)
      rw [List.intersperse_cons_cons, List.cons_append, List.cons_append, readSegments,
        if_pos isSegment]
      simp [later]

end Token

namespace WrittenChain

variable {chain : WrittenChain} {rest : List Token}

theorem filter_isSegment_intersperse {segments : List Token}
    (areSegments : ∀ segment ∈ segments, segment.isSegment = true) :
    (segments.intersperse Token.scope).filter Token.isSegment = segments := by
  induction segments with
  | nil => rfl
  | cons segment later ih =>
    have isSegment := areSegments segment List.mem_cons_self
    have beyond := ih fun other member => areSegments other (List.mem_cons_of_mem _ member)
    cases later with
    | nil => simp [isSegment]
    | cons next more => simp [isSegment, beyond]

/-- The segments of a chain are read off its tokens. -/
theorem filter_isSegment_tokens (stands : chain.StandsBefore rest) :
    chain.tokens.filter Token.isSegment = chain.segments := by
  have noSegment : ∀ written, (scopeIf written).filter Token.isSegment = [] := by
    intro written
    cases written <;> rfl
  rw [tokens, List.filter_append, List.filter_append, noSegment, noSegment,
    filter_isSegment_intersperse stands.segments, List.nil_append, List.append_nil]

theorem mem_tokens_of_mem_segments (stands : chain.StandsBefore rest) {segment : Token}
    (member : segment ∈ chain.segments) : segment ∈ chain.tokens := by
  rw [← filter_isSegment_tokens stands] at member
  exact List.mem_of_mem_filter member

/-- What reading makes of the chain. -/
def toScopeChain (chain : WrittenChain) : ScopeChain :=
  ⟨chain.segments.map Token.text, chain.endsInScope || chain.segments.isEmpty⟩

theorem readSegments_tokens (stands : chain.StandsBefore rest) :
    Token.readSegments
        (chain.segments.intersperse Token.scope ++ (scopeIf chain.endsInScope ++ rest)) =
      (chain.toScopeChain, rest) := by
  have complete := stands.complete
  by_cases empty : chain.segments = []
  · have noEnd : chain.endsInScope = false :=
      Bool.eq_false_iff.mpr fun ends => stands.ending ends empty
    rw [if_pos (Or.inl empty)] at complete
    simp [toScopeChain, scopeIf, empty, noEnd, Token.readSegments_of_noSegment complete]
  · simp only [empty, false_or] at complete
    rw [Token.readSegments_written stands.segments empty complete, toScopeChain]
    simp [empty]

/-- A chain that does not open with `::` opens with a segment that `::` follows. -/
theorem exists_scope_behind (stands : chain.StandsBefore rest)
    (opens : chain.opensInScope = false) : ∃ segment beyond, segment.isSegment = true ∧
      chain.segments.intersperse Token.scope ++ (scopeIf chain.endsInScope ++ rest) =
        segment :: Token.scope :: beyond := by
  have areSegments := stands.segments
  have scope := stands.scope
  have ending := stands.ending
  rw [opens] at scope
  match segments : chain.segments with
  | [] =>
    rw [segments] at scope ending
    have ends : chain.endsInScope = true := by simpa using scope
    exact absurd rfl (ending ends)
  | [segment] =>
    rw [segments] at scope areSegments
    have ends : chain.endsInScope = true := by simpa using scope
    exact ⟨segment, rest, areSegments segment List.mem_cons_self, by simp [scopeIf, ends]⟩
  | segment :: next :: more =>
    rw [segments] at areSegments
    exact ⟨segment, (next :: more).intersperse Token.scope ++ (scopeIf chain.endsInScope ++ rest),
      areSegments segment List.mem_cons_self, by simp⟩

/-- A chain is opened by its first token and read to its end. -/
theorem readChain_tokens (stands : chain.StandsBefore rest) : ∃ token following,
    chain.tokens ++ rest = token :: following ∧ Token.opensChain token following = true ∧
      Token.readChain token following = (chain.toScopeChain, rest) := by
  have reads := readSegments_tokens stands
  cases opens : chain.opensInScope with
  | true =>
    refine ⟨Token.scope, chain.segments.intersperse Token.scope ++
      (scopeIf chain.endsInScope ++ rest), ?_, rfl, ?_⟩
    · simp [tokens, scopeIf, opens]
    · rw [Token.readChain, if_pos Token.isScope_scope, reads]
  | false =>
    obtain ⟨segment, beyond, isSegment, spelled⟩ := exists_scope_behind stands opens
    have noScope := Token.isScope_of_isSegment isSegment
    refine ⟨segment, Token.scope :: beyond, ?_, ?_, ?_⟩
    · simpa [tokens, scopeIf, opens] using spelled
    · simp [Token.opensChain, isSegment]
    · rw [Token.readChain, noScope, if_neg Bool.false_ne_true, ← spelled, reads]

/-- A chain takes a token at least. -/
theorem rest_length_lt (stands : chain.StandsBefore rest) :
    rest.length < (chain.tokens ++ rest).length := by
  obtain ⟨token, following, spelled, opens, reads⟩ := readChain_tokens stands
  have shorter := Token.readChain_rest_length opens
  rw [reads] at shorter
  rw [spelled]
  exact Nat.lt_succ_of_le shorter

/-- A chain is one piece of the display. -/
theorem ofTokens_tokens (stands : chain.StandsBefore rest) :
    DisplayPiece.ofTokens (chain.tokens ++ rest) =
      ⟨chain.toScopeChain.displayText, false⟩ :: DisplayPiece.ofTokens rest := by
  obtain ⟨token, following, spelled, opens, reads⟩ := readChain_tokens stands
  rw [spelled, DisplayPiece.ofTokens, dif_pos opens, reads]

/-! ## The chain at the head of a list -/

/-- A list determines the chain it starts with. -/
theorem eq_of_tokens_append {other : WrittenChain} {otherRest : List Token}
    (stands : chain.StandsBefore rest) (otherStands : other.StandsBefore otherRest)
    (same : chain.tokens ++ rest = other.tokens ++ otherRest) :
    chain = other ∧ rest = otherRest := by
  obtain ⟨token, following, spelled, _, reads⟩ := readChain_tokens stands
  obtain ⟨_, _, otherSpelled, _, otherReads⟩ := readChain_tokens otherStands
  obtain ⟨rfl, rfl⟩ := List.cons.inj (spelled.symm.trans (same.trans otherSpelled))
  obtain ⟨sameChain, rfl⟩ := Prod.mk.inj (reads.symm.trans otherReads)
  have sameTokens := List.append_cancel_right same
  have sameSegments : chain.segments = other.segments := by
    rw [← filter_isSegment_tokens stands, sameTokens, filter_isSegment_tokens otherStands]
  have ending := stands.ending
  have otherEnding := otherStands.ending
  obtain ⟨opens, segments, ends⟩ := chain
  obtain ⟨otherOpens, otherSegments, otherEnds⟩ := other
  obtain rfl : segments = otherSegments := sameSegments
  obtain rfl : ends = otherEnds := by
    have sameEnd := congrArg ScopeChain.endsInScope sameChain
    simp only [toScopeChain] at sameEnd
    cases segments with
    | nil => simp_all
    | cons segment later => simpa using sameEnd
  have sameStart := List.append_cancel_right sameTokens
  cases opens <;> cases otherOpens <;> simp_all [scopeIf]

/-- Every list starts with segments and `::` between them, possibly with none. -/
theorem exists_written {list : List Token}
    (scopes : ∀ token ∈ list, token.isScope = true → token = Token.scope) :
    ∃ (segments : List Token) (ends : Bool) (rest : List Token),
      list = segments.intersperse Token.scope ++ (scopeIf ends ++ rest) ∧
        (∀ segment ∈ segments, segment.isSegment = true) ∧ (ends = true → segments ≠ []) ∧
        if segments = [] ∨ ends = true then ∀ next ∈ rest.head?, next.isSegment = false
          else ∀ next ∈ rest.head?, next.isScope = false := by
  fun_induction Token.readSegments list with
  | case1 => exact ⟨[], false, [], rfl, by simp, by simp, by simp⟩
  | case2 token segment => exact ⟨[token], false, [], rfl, by simpa using segment, by simp, by simp⟩
  | case3 token segment next beyond scope _ _ _ ih =>
    obtain rfl := scopes next (by simp) scope
    obtain ⟨segments, ends, rest, spelled, areSegments, ending, complete⟩ :=
      ih fun other member => scopes other (by simp [member])
    cases segments with
    | nil =>
      refine ⟨[token], true, beyond, by simp [scopeIf], by simpa using segment, by simp, ?_⟩
      have noEnd : ends = false := Bool.eq_false_iff.mpr fun isEnd => ending isEnd rfl
      simp only [noEnd, scopeIf, List.intersperse_nil, List.nil_append] at spelled
      simpa [spelled] using complete
    | cons first later =>
      refine ⟨token :: first :: later, ends, rest, by simp [spelled], ?_, by simp, ?_⟩
      · simpa [segment] using areSegments
      · simpa using complete
  | case4 token segment next beyond noScope =>
    exact ⟨[token], false, next :: beyond, rfl, by simpa using segment, by simp,
      by simpa using noScope⟩
  | case5 token following noSegment =>
    exact ⟨[], false, token :: following, rfl, by simp, by simp, by simpa using noSegment⟩

end WrittenChain

/-! ## Every list shows one other -/

/-- Where a chain opens, a whole chain stands. -/
theorem WrittenChain.exists_standsBefore {token : Token} {following : List Token}
    (opens : Token.opensChain token following = true)
    (scopes : ∀ other ∈ token :: following, other.isScope = true → other = Token.scope) :
    ∃ (chain : WrittenChain) (rest : List Token), token :: following = chain.tokens ++ rest ∧
      chain.StandsBefore rest := by
  cases scope : token.isScope with
  | true =>
    obtain rfl := scopes token List.mem_cons_self scope
    obtain ⟨segments, ends, rest, rfl, areSegments, ending, complete⟩ :=
      exists_written fun other member => scopes other (List.mem_cons_of_mem _ member)
    exact ⟨⟨true, segments, ends⟩, rest, by simp [tokens, scopeIf],
      ⟨areSegments, .inl rfl, ending, complete⟩⟩
  | false =>
    simp only [Token.opensChain, scope, Bool.false_or, Bool.and_eq_true] at opens
    obtain ⟨isSegment, scopeNext⟩ := opens
    obtain ⟨segments, ends, rest, spelled, areSegments, ending, complete⟩ := exists_written scopes
    refine ⟨⟨false, segments, ends⟩, rest, by simpa [tokens, scopeIf] using spelled,
      ⟨areSegments, .inr ?_, ending, complete⟩⟩
    cases segments with
    | nil =>
      have noEnd : ends = false := Bool.eq_false_iff.mpr fun isEnd => ending isEnd rfl
      rw [noEnd] at spelled
      obtain rfl : token :: following = rest := by simpa [scopeIf] using spelled
      simp [isSegment] at complete
    | cons segment later =>
      cases later with
      | cons next more => exact .inr (by simp)
      | nil =>
        cases ends with
        | true => exact .inl rfl
        | false =>
          obtain ⟨rfl, rfl⟩ : token = segment ∧ following = rest := by
            simpa [scopeIf] using spelled
          cases following with
          | nil => simp at scopeNext
          | cons next beyond => simp_all

theorem exists_shows (tokens : List Token)
    (scopes : ∀ token ∈ tokens, token.isScope = true → token = Token.scope) :
    ∃ shown, Shows tokens shown := by
  induction length : tokens.length using Nat.strongRecOn generalizing tokens with
  | _ n ih =>
    cases tokens with
    | nil => exact ⟨[], .nil⟩
    | cons token following =>
      cases opens : Token.opensChain token following with
      | true =>
        obtain ⟨chain, rest, spelled, stands⟩ := WrittenChain.exists_standsBefore opens scopes
        rw [spelled] at scopes length ⊢
        have below : rest.length < n := length ▸ WrittenChain.rest_length_lt stands
        obtain ⟨shown, shows⟩ := ih rest.length below rest
          (fun other member => scopes other (List.mem_append_right _ member)) rfl
        exact ⟨chain.shown ++ shown, .chain chain stands shows⟩
      | false =>
        simp only [Token.opensChain, Bool.or_eq_false_iff, Bool.and_eq_false_iff] at opens
        have below : following.length < n := by
          rw [← length]
          exact Nat.lt_succ_self _
        obtain ⟨shown, shows⟩ := ih following.length below following
          (fun other member => scopes other (List.mem_cons_of_mem _ member)) rfl
        refine ⟨token :: shown, .token opens.1 (fun isSegment next head => ?_) shows⟩
        rcases opens.2 with noSegment | noScope
        · rw [isSegment] at noSegment
          contradiction
        · rw [Option.mem_def.mp head] at noScope
          exact noScope

namespace Shows

/-- The rule that applies to a list follows from its first two tokens. -/
theorem cases_cons {token : Token} {following shown : List Token}
    (shows : Shows (token :: following) shown) :
    (Token.opensChain token following = false ∧
      ∃ later, shown = token :: later ∧ Shows following later) ∨
    (Token.opensChain token following = true ∧
      ∃ (chain : WrittenChain) (rest later : List Token),
        token :: following = chain.tokens ++ rest ∧ chain.StandsBefore rest ∧
        shown = chain.shown ++ later ∧ Shows rest later) := by
  generalize spelled : token :: following = tokens at shows
  cases shows with
  | nil => contradiction
  | @token _ rest later noScope single shows =>
    obtain ⟨rfl, rfl⟩ := List.cons.inj spelled
    exact .inl ⟨Token.opensChain_eq_false noScope single, later, rfl, shows⟩
  | @chain chain rest later stands shows =>
    obtain ⟨first, beyond, opening, opens, _⟩ := WrittenChain.readChain_tokens stands
    obtain ⟨rfl, rfl⟩ := List.cons.inj (spelled.trans opening)
    exact .inr ⟨opens, chain, rest, later, rfl, stands, rfl, shows⟩

/-- No list shows two others. -/
theorem unique {tokens shown other : List Token} (shows : Shows tokens shown)
    (alsoShows : Shows tokens other) : shown = other := by
  induction shows generalizing other with
  | nil =>
    generalize spelled : ([] : List Token) = tokens at alsoShows
    cases alsoShows with
    | nil => rfl
    | token => contradiction
    | chain chain stands =>
      have taken := WrittenChain.rest_length_lt stands
      simp [← spelled] at taken
  | token noScope single _ ih =>
    have alone := Token.opensChain_eq_false noScope single
    rcases alsoShows.cases_cons with ⟨_, later, rfl, also⟩ | ⟨opens, _⟩
    · rw [ih also]
    · rw [alone] at opens
      contradiction
  | @chain chain rest shown stands _ ih =>
    obtain ⟨token, following, spelled, opens, _⟩ := WrittenChain.readChain_tokens stands
    rw [spelled] at alsoShows
    rcases alsoShows.cases_cons with ⟨alone, _⟩ | ⟨_, _, _, later, same, also, rfl, alsoLater⟩
    · rw [opens] at alone
      contradiction
    · obtain ⟨rfl, rfl⟩ := WrittenChain.eq_of_tokens_append stands also (spelled.trans same)
      rw [ih alsoLater]

/-- Without a `::`, a list shows its tokens as they are. -/
theorem of_noScope {tokens : List Token} (noScope : ∀ token ∈ tokens, token.isScope = false) :
    Shows tokens tokens := by
  induction tokens with
  | nil => exact .nil
  | cons token later ih =>
    have noScopeLater : ∀ other ∈ later, other.isScope = false :=
      fun other member => noScope other (List.mem_cons_of_mem _ member)
    refine .token (noScope token List.mem_cons_self) (fun _ next head => ?_) (ih noScopeLater)
    exact noScopeLater next (List.mem_of_head? head)

end Shows

namespace WrittenChain

variable {chain : WrittenChain} {rest : List Token}

/-! ## What a chain shows -/

theorem mem_or_eq_of_mem_intersperse {α : Type} {item separator : α} {list : List α}
    (member : item ∈ list.intersperse separator) : item ∈ list ∨ item = separator := by
  induction list with
  | nil => exact .inl member
  | cons first later ih =>
    cases later with
    | nil => exact .inl member
    | cons next more =>
      rw [List.intersperse_cons_cons, List.mem_cons, List.mem_cons] at member
      rcases member with rfl | rfl | beyond
      · exact .inl List.mem_cons_self
      · exact .inr rfl
      · exact (ih beyond).imp_left (List.mem_cons_of_mem _)

theorem shownSegments_toScopeChain (chain : WrittenChain) :
    chain.toScopeChain.shownSegments = chain.left.map Token.text := by
  unfold toScopeChain ScopeChain.shownSegments left
  cases chain.endsInScope with
  | true => simp
  | false =>
    cases chain.segments with
    | nil => rfl
    | cons segment later => simp

theorem mem_of_mem_left {segment : Token} (member : segment ∈ chain.left) :
    segment ∈ chain.segments := by
  unfold left at member
  split at member
  · exact (List.dropLast_sublist _).mem member
  · exact member

/-- A chain shows segments and `::`. -/
theorem mem_segments_of_mem_shown {token : Token} (member : token ∈ chain.shown) :
    token ∈ chain.segments ∨ token = Token.scope := by
  unfold shown at member
  split at member
  · contradiction
  · rename_i last isLast
    split at member
    · refine (mem_or_eq_of_mem_intersperse member).imp_left fun inFront => ?_
      exact mem_of_mem_left ((List.dropLast_sublist _).mem inFront)
    · obtain rfl := List.mem_singleton.mp member
      exact .inl (mem_of_mem_left (List.mem_of_getLast? isLast))

end WrittenChain

/-- A list shows its own tokens and `::`. -/
theorem Shows.mem_or_eq_scope {tokens shown : List Token} (shows : Shows tokens shown)
    {token : Token} (member : token ∈ shown) : token ∈ tokens ∨ token = Token.scope := by
  induction shows with
  | nil => exact .inl member
  | token _ _ _ ih =>
    rcases List.mem_cons.mp member with rfl | later
    · exact .inl List.mem_cons_self
    · exact (ih later).imp_left (List.mem_cons_of_mem _)
  | chain chain stands _ ih =>
    rcases List.mem_append.mp member with here | later
    · refine (chain.mem_segments_of_mem_shown here).imp_left fun segment => ?_
      exact List.mem_append_left _ (WrittenChain.mem_tokens_of_mem_segments stands segment)
    · exact (ih later).imp_left (List.mem_append_right _)

/-! ## Writing what a chain shows -/

namespace DisplayPiece

/-- The piece that a token makes alone. -/
def ofToken (token : Token) : DisplayPiece :=
  ⟨token.text, token.kind.isQualifier⟩

theorem wouldTouch_append_left {written : List Char} (nonempty : written ≠ [])
    (before next : List Char) : wouldTouch (before ++ written) next = wouldTouch written next := by
  rw [wouldTouch, List.getLast?_append_of_ne_nil before nonempty, ← wouldTouch]

theorem wouldTouch_append_right {next : List Char} (nonempty : next ≠ [])
    (written after : List Char) : wouldTouch written (next ++ after) = wouldTouch written next := by
  rw [wouldTouch, List.head?_append_of_ne_nil next nonempty, ← wouldTouch]

theorem wouldTouch_scope (next : List Char) :
    wouldTouch "::".toList next = false ∧ wouldTouch next "::".toList = false := by
  have colon : isWordPart ':' = false := by decide
  simp [wouldTouch, colon]

/-- Two texts that do not touch are written one behind the other as they are written in one go. -/
theorem writeAfter_writeAfter {first second : String} (nonempty : first ≠ "")
    (apart : wouldTouch first.toList second.toList = false) (spaceAfter : Bool)
    (written : List Char) :
    writeAfter (writeAfter written ⟨first, false⟩) ⟨second, spaceAfter⟩ =
      writeAfter written ⟨first ++ second, spaceAfter⟩ := by
  have characters : first.toList ≠ [] := by simpa using nonempty
  have behind : wouldTouch (writeAfter written ⟨first, false⟩) second.toList = false := by
    rw [writeAfter, if_neg Bool.false_ne_true, List.append_nil, wouldTouch_append_left characters,
      apart]
  have before : wouldTouch written (first ++ second).toList = wouldTouch written first.toList := by
    rw [String.toList_append, wouldTouch_append_right characters]
  calc writeAfter (writeAfter written ⟨first, false⟩) ⟨second, spaceAfter⟩
      = writeAfter written ⟨first, false⟩ ++ second.toList ++
          (if spaceAfter then [' '] else []) := by
        rw [writeAfter, behind]
        simp
    _ = writeAfter written ⟨first ++ second, spaceAfter⟩ := by
        rw [writeAfter, writeAfter, before]
        simp

/-- Segments are written with `::` between them as they are written in one go. -/
theorem foldl_writeAfter_intersperse {segment : Token} {later : List Token}
    (plain : ∀ token ∈ segment :: later, token.text ≠ "" ∧ token.kind.isQualifier = false)
    (written : List Char) :
    (((segment :: later).intersperse Token.scope).map ofToken).foldl writeAfter written =
      writeAfter written ⟨"::".intercalate ((segment :: later).map Token.text), false⟩ := by
  induction later generalizing segment written with
  | nil => simp [ofToken, (plain segment List.mem_cons_self).2]
  | cons next more ih =>
    obtain ⟨nonempty, noQualifier⟩ := plain segment List.mem_cons_self
    have beyond := ih fun token member => plain token (List.mem_cons_of_mem _ member)
    have scopeAlone : ofToken Token.scope = ⟨"::", false⟩ := rfl
    have segmentAlone : ofToken segment = ⟨segment.text, false⟩ := by rw [ofToken, noQualifier]
    have joined : "::".intercalate ((segment :: next :: more).map Token.text) =
        segment.text ++ ("::" ++ "::".intercalate ((next :: more).map Token.text)) := by
      rw [List.map_cons, List.map_cons, String.intercalate_cons_cons, String.append_assoc]
    have apart : wouldTouch segment.text.toList
        ("::" ++ "::".intercalate ((next :: more).map Token.text)).toList = false := by
      rw [String.toList_append, wouldTouch_append_right (by decide), (wouldTouch_scope _).2]
    rw [List.intersperse_cons_cons, List.map_cons, List.map_cons, List.foldl_cons, List.foldl_cons,
      beyond, scopeAlone, segmentAlone, writeAfter_writeAfter (by decide) (wouldTouch_scope _).1,
      writeAfter_writeAfter nonempty apart, joined]

theorem writeAfter_nothing (written : List Char) : writeAfter written ⟨"", false⟩ = written := by
  simp [writeAfter, wouldTouch]

/-- The tokens that a chain shows are written one by one as the chain is written. -/
theorem foldl_writeAfter_shown {chain : WrittenChain}
    (segments : ∀ segment ∈ chain.segments, segment.text ≠ "" ∧ segment.kind.isQualifier = false)
    (written : List Char) :
    (chain.shown.map ofToken).foldl writeAfter written =
      writeAfter written ⟨chain.toScopeChain.displayText, false⟩ := by
  have leftPlain : ∀ segment ∈ chain.left, segment.text ≠ "" ∧ segment.kind.isQualifier = false :=
    fun segment member => segments segment (WrittenChain.mem_of_mem_left member)
  unfold WrittenChain.shown ScopeChain.displayText
  rw [WrittenChain.shownSegments_toScopeChain, List.getLast?_map, List.length_map,
    ← List.map_dropLast]
  cases ending : chain.left.getLast? with
  | none => exact (writeAfter_nothing written).symm
  | some last =>
    simp only [Option.map_some]
    by_cases enum : last.text = "Enum" ∧ 2 ≤ chain.left.length
    · have enumShown : last.text = ScopeChain.enumSegment ∧ 1 < chain.left.length := enum
      rw [if_pos enum, if_pos enumShown]
      cases front : chain.left.dropLast with
      | nil =>
        have short := congrArg List.length front
        simp only [List.length_dropLast, List.length_nil] at short
        omega
      | cons segment later =>
        refine foldl_writeAfter_intersperse (fun token member => ?_) written
        exact leftPlain token ((List.dropLast_sublist _).mem (front ▸ member))
    · have lastShown : ¬ (last.text = ScopeChain.enumSegment ∧ 1 < chain.left.length) := enum
      rw [if_neg enum, if_neg lastShown]
      have plain := leftPlain last (List.mem_of_getLast? ending)
      simp [ofToken, plain.2]

/-- The pieces of a list are written as the tokens it shows are written one by one. -/
theorem foldl_writeAfter_ofTokens {tokens shown : List Token} (shows : Shows tokens shown)
    (nonempty : ∀ token ∈ tokens, token.text ≠ "") (written : List Char) :
    (ofTokens tokens).foldl writeAfter written =
      (shown.map ofToken).foldl writeAfter written := by
  induction shows generalizing written with
  | nil => rw [ofTokens]; rfl
  | @token token rest shown noScope single _ ih =>
    have alone := Token.opensChain_eq_false noScope single
    rw [ofTokens, dif_neg (Bool.eq_false_iff.mp alone), List.map_cons, List.foldl_cons,
      List.foldl_cons, ih fun other member => nonempty other (List.mem_cons_of_mem _ member)]
    rfl
  | chain chain stands _ ih =>
    have segments : ∀ segment ∈ chain.segments,
        segment.text ≠ "" ∧ segment.kind.isQualifier = false := by
      intro segment member
      refine ⟨nonempty segment (List.mem_append_left _ ?_), ?_⟩
      · exact WrittenChain.mem_tokens_of_mem_segments stands member
      · exact Token.not_isQualifier_of_isSegment (stands.segments segment member)
    rw [WrittenChain.ofTokens_tokens stands, List.foldl_cons, List.map_append, List.foldl_append,
      foldl_writeAfter_shown segments,
      ih fun other member => nonempty other (List.mem_append_right _ member)]

end DisplayPiece

end ApiReference
