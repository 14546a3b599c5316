import ApiReference.Proofs.Token.WellFormed
import ApiReference.Source.Argument
import Mathlib.Data.List.Infix
import Mathlib.Data.Nat.PSub

/-!
# The arguments of a call

What stands in the parentheses of a call are its arguments and the commas between them.  An argument
is balanced in parentheses and holds commas inside its own parentheses only (`Balanced`).  Either
the tokens behind an opening parenthesis start with the arguments, the commas and the closing
parenthesis (`ClosedCall`), or the parenthesis is never closed, and then arguments that are ended by
commas are followed by one that is not (`OpenCall`); there is nothing else (`exists_call`).

The scan for an argument keeps its depth over balanced tokens (`lastOfArgument?_balanced`), so that
it stops where the argument ends, and the last token of the argument is the one before.
`literalArgument?_of_call` says what it finds in both kinds of calls.  There it is also said that no
subtraction of the scan goes below zero: done by index and with subtractions that fail, it finds the
same (`checkedArgument?`).
-/

set_option autoImplicit false

namespace ApiReference

/-! ## Balanced tokens -/

/-- The tokens are balanced in parentheses.  The flag tells whether there may be commas outside of
these. -/
inductive Balanced : Bool → List Token → Prop where
  | nil {commas : Bool} : Balanced commas []
  | token {commas : Bool} {token : Token} {rest : List Token} (noOpening : token.kind ≠ .openParen)
      (noClosing : token.kind ≠ .closeParen) (comma : token.kind = .comma → commas = true) :
      Balanced commas rest → Balanced commas (token :: rest)
  | parens {commas : Bool} {opening closing : Token} {inner rest : List Token}
      (opens : opening.kind = .openParen) (closes : closing.kind = .closeParen) :
      Balanced true inner → Balanced commas rest →
      Balanced commas (opening :: (inner ++ closing :: rest))

/-- The tokens are balanced but for parentheses that are never closed.  The flag tells whether there
may be commas outside of all parentheses. -/
inductive Unclosed : Bool → List Token → Prop where
  | balanced {commas : Bool} {tokens : List Token} : Balanced commas tokens → Unclosed commas tokens
  | opened {commas : Bool} {front behind : List Token} {opening : Token}
      (opens : opening.kind = .openParen) :
      Balanced commas front → Unclosed true behind → Unclosed commas (front ++ opening :: behind)

/-! ## Calls -/

/-- The tokens of a call behind its opening parenthesis, up to the one that closes it, with the
arguments between the commas. -/
inductive ClosedCall : List (List Token) → List Token → Prop where
  | last {argument : List Token} {closing : Token} (closes : closing.kind = .closeParen) :
      Balanced false argument → ClosedCall [argument] (argument ++ [closing])
  | more {argument tokens : List Token} {arguments : List (List Token)} {comma : Token}
      (separates : comma.kind = .comma) :
      Balanced false argument → ClosedCall arguments tokens →
      ClosedCall (argument :: arguments) (argument ++ comma :: tokens)

/-- The tokens behind an opening parenthesis that is never closed, with the arguments that a comma
ends. -/
inductive OpenCall : List (List Token) → List Token → Prop where
  | unended {tokens : List Token} : Unclosed false tokens → OpenCall [] tokens
  | more {argument tokens : List Token} {arguments : List (List Token)} {comma : Token}
      (separates : comma.kind = .comma) :
      Balanced false argument → OpenCall arguments tokens →
      OpenCall (argument :: arguments) (argument ++ comma :: tokens)

/-- A parenthesis that stands before the tokens is never closed: up to no place are there more
closing ones than opening ones. -/
def NeverCloses (tokens : List Token) : Prop :=
  ∀ front, front <+: tokens →
    front.countP (·.kind = .closeParen) ≤ front.countP (·.kind = .openParen)

instance (tokens : List Token) : Decidable (NeverCloses tokens) :=
  decidable_of_iff (∀ front ∈ tokens.inits,
      front.countP (·.kind = .closeParen) ≤ front.countP (·.kind = .openParen))
    (forall_congr' fun front => imp_congr_left (List.mem_inits front tokens))

/-- The literal that ends the argument at a position, counted from one. -/
def endingLiteral? (arguments : List (List Token)) : Nat → Option String
  | 0 => none
  | place + 1 =>
    ((arguments[place]?.bind List.getLast?).filter (·.kind = .stringLiteral)).map Token.text

/-! ## Every call is of one kind -/

theorem Balanced.withCommas {commas : Bool} {tokens : List Token}
    (balanced : Balanced commas tokens) : Balanced true tokens := by
  induction balanced with
  | nil => exact .nil
  | token noOpening noClosing _ _ ih => exact .token noOpening noClosing (fun _ => rfl) ih
  | parens opens closes inner _ _ ih => exact .parens opens closes inner ih

theorem Balanced.append {commas : Bool} {front behind : List Token}
    (balanced : Balanced commas front) (balancedBehind : Balanced commas behind) :
    Balanced commas (front ++ behind) := by
  induction balanced with
  | nil => exact balancedBehind
  | token noOpening noClosing comma _ ih =>
    exact .token noOpening noClosing comma (ih balancedBehind)
  | parens opens closes inner _ _ ih =>
    rw [List.cons_append, List.append_assoc, List.cons_append]
    exact .parens opens closes inner (ih balancedBehind)

theorem Balanced.countP_eq {commas : Bool} {tokens : List Token}
    (balanced : Balanced commas tokens) :
    tokens.countP (·.kind = .closeParen) = tokens.countP (·.kind = .openParen) := by
  induction balanced with
  | nil => rfl
  | token noOpening noClosing _ _ ih => simpa [noOpening, noClosing] using ih
  | parens opens closes _ _ ihInner ih =>
    simp only [List.countP_cons, List.countP_append, opens, closes, ihInner, ih]
    simp only [decide_true, reduceCtorEq, decide_false, Bool.false_eq_true, if_true, if_false]
    omega

theorem Unclosed.prepend {commas : Bool} {front behind : List Token}
    (unclosed : Unclosed commas behind) (balanced : Balanced commas front) :
    Unclosed commas (front ++ behind) := by
  cases unclosed with
  | balanced balancedBehind => exact .balanced (balanced.append balancedBehind)
  | opened opens between unclosed =>
    rw [← List.append_assoc]
    exact .opened opens (balanced.append between) unclosed

/-- A balanced start belongs to the first argument. -/
theorem ClosedCall.prepend {front argument tokens : List Token} {arguments : List (List Token)}
    (call : ClosedCall (argument :: arguments) tokens) (balanced : Balanced false front) :
    ClosedCall ((front ++ argument) :: arguments) (front ++ tokens) := by
  cases call with
  | last closes balancedArgument =>
    rw [← List.append_assoc]
    exact .last closes (balanced.append balancedArgument)
  | more separates balancedArgument call =>
    rw [← List.append_assoc]
    exact .more separates (balanced.append balancedArgument) call

theorem ClosedCall.exists_cons {tokens : List Token} {arguments : List (List Token)}
    (call : ClosedCall arguments tokens) : ∃ argument others, arguments = argument :: others := by
  cases call with
  | last => exact ⟨_, _, rfl⟩
  | more => exact ⟨_, _, rfl⟩

theorem OpenCall.prepend {front tokens : List Token} {arguments : List (List Token)}
    (call : OpenCall arguments tokens) (balanced : Balanced false front) :
    ∃ others, OpenCall others (front ++ tokens) := by
  cases call with
  | unended unclosed => exact ⟨[], .unended (unclosed.prepend balanced)⟩
  | more separates balancedArgument call =>
    rw [← List.append_assoc]
    exact ⟨_, .more separates (balanced.append balancedArgument) call⟩

/-- Before the closing parenthesis of a call, everything is balanced. -/
theorem ClosedCall.exists_closing {tokens : List Token} {arguments : List (List Token)}
    (call : ClosedCall arguments tokens) :
    ∃ inner closing, tokens = inner ++ [closing] ∧ Balanced true inner ∧
      closing.kind = .closeParen := by
  induction call with
  | @last argument closing closes balanced =>
    exact ⟨argument, closing, rfl, balanced.withCommas, closes⟩
  | @more argument _ _ comma separates balanced _ ih =>
    obtain ⟨inner, closing, rfl, balancedInner, closes⟩ := ih
    have noOpening : comma.kind ≠ .openParen := by simp [separates]
    have noClosing : comma.kind ≠ .closeParen := by simp [separates]
    refine ⟨argument ++ comma :: inner, closing, by simp, ?_, closes⟩
    exact balanced.withCommas.append (.token noOpening noClosing (fun _ => rfl) balancedInner)

/-- What a token opens that closes nothing: a balanced start, or a parenthesis never closed. -/
theorem exists_piece {token : Token} {following : List Token} (noClosing : token.kind ≠ .closeParen)
    (behind : (∃ inner closing after, following = inner ++ closing :: after ∧
      Balanced true inner ∧ closing.kind = .closeParen) ∨ Unclosed true following) :
    (∃ piece rest, token :: following = piece ++ rest ∧ piece ≠ [] ∧
      ∀ commas, (token.kind = .comma → commas = true) → Balanced commas piece) ∨
      ∀ commas, Unclosed commas (token :: following) := by
  by_cases opens : token.kind = .openParen
  · rcases behind with ⟨inner, closing, after, rfl, balanced, closes⟩ | unclosed
    · refine .inl ⟨token :: (inner ++ [closing]), after, by simp, by simp, fun commas _ => ?_⟩
      exact .parens opens closes balanced .nil
    · exact .inr fun commas => .opened opens .nil unclosed
  · refine .inl ⟨[token], following, rfl, by simp, fun commas comma => ?_⟩
    exact .token opens noClosing comma .nil

/-- Behind an opening parenthesis stands the one that closes it, or it is never closed. -/
theorem closes_or_unclosed (tokens : List Token) :
    (∃ inner closing after, tokens = inner ++ closing :: after ∧ Balanced true inner ∧
      closing.kind = .closeParen) ∨ Unclosed true tokens := by
  induction length : tokens.length using Nat.strongRecOn generalizing tokens with
  | _ n ih =>
    cases tokens with
    | nil => exact .inr (.balanced .nil)
    | cons token following =>
      have shorter : following.length < n := length ▸ Nat.lt_succ_self _
      by_cases closes : token.kind = .closeParen
      · exact .inl ⟨[], token, following, rfl, .nil, closes⟩
      rcases exists_piece closes (ih _ shorter following rfl) with
        ⟨piece, rest, spelled, nonempty, balanced⟩ | unclosed
      · have balancedPiece := balanced true fun _ => rfl
        have fewer : rest.length < n := by
          rw [← length, spelled, List.length_append]
          exact Nat.lt_add_of_pos_left (List.length_pos_iff.mpr nonempty)
        rw [spelled]
        rcases ih _ fewer rest rfl with ⟨inner, closing, after, rfl, inside, closesIt⟩ | unclosed
        · have balanced := balancedPiece.append inside
          exact .inl ⟨piece ++ inner, closing, after, by simp, balanced, closesIt⟩
        · exact .inr (unclosed.prepend balancedPiece)
      · exact .inr (unclosed true)

/-- Behind an opening parenthesis stands a call that is closed or one that never is. -/
theorem exists_call (tokens : List Token) :
    (∃ arguments call after, tokens = call ++ after ∧ ClosedCall arguments call) ∨
      ∃ arguments, OpenCall arguments tokens := by
  induction length : tokens.length using Nat.strongRecOn generalizing tokens with
  | _ n ih =>
    cases tokens with
    | nil => exact .inr ⟨[], .unended (.balanced .nil)⟩
    | cons token following =>
      have shorter : following.length < n := length ▸ Nat.lt_succ_self _
      by_cases closes : token.kind = .closeParen
      · exact .inl ⟨[[]], [token], following, rfl, .last closes .nil⟩
      by_cases separates : token.kind = .comma
      · rcases ih _ shorter following rfl with
          ⟨arguments, call, after, rfl, closed⟩ | ⟨arguments, openCall⟩
        · exact .inl ⟨[] :: arguments, token :: call, after, rfl, .more separates .nil closed⟩
        · exact .inr ⟨[] :: arguments, .more separates .nil openCall⟩
      rcases exists_piece closes (closes_or_unclosed following) with
        ⟨piece, rest, spelled, nonempty, balanced⟩ | unclosed
      · have balancedPiece := balanced false fun comma => absurd comma separates
        have fewer : rest.length < n := by
          rw [← length, spelled, List.length_append]
          exact Nat.lt_add_of_pos_left (List.length_pos_iff.mpr nonempty)
        rw [spelled]
        rcases ih _ fewer rest rfl with
          ⟨arguments, call, after, rfl, closed⟩ | ⟨arguments, openCall⟩
        · obtain ⟨argument, others, rfl⟩ := closed.exists_cons
          exact .inl ⟨_, piece ++ call, after, by simp, closed.prepend balancedPiece⟩
        · exact .inr (openCall.prepend balancedPiece)
      · exact .inr ⟨[], .unended (unclosed false)⟩

/-- A parenthesis that is never closed opens a call that never is. -/
theorem NeverCloses.exists_openCall {tokens : List Token} (never : NeverCloses tokens) :
    ∃ arguments, OpenCall arguments tokens := by
  refine (exists_call tokens).resolve_left ?_
  rintro ⟨arguments, call, after, rfl, closed⟩
  obtain ⟨inner, closing, rfl, balanced, closes⟩ := closed.exists_closing
  have counts := never (inner ++ [closing]) (List.prefix_append _ after)
  simp only [List.countP_append, List.countP_singleton, balanced.countP_eq, closes, decide_true,
    if_true, reduceCtorEq, decide_false, Bool.false_eq_true, if_false] at counts
  omega

/-! ## Scanning -/

variable {tokens : List Token} {arguments : List (List Token)}

/-- Balanced tokens neither end an argument nor change the depth. -/
theorem lastOfArgument?_balanced {commas : Bool} (balanced : Balanced commas tokens) {depth : Nat}
    (inside : 1 ≤ depth) (deeper : commas = true → 2 ≤ depth) (position : Nat) (previous : Token)
    (rest : List Token) :
    lastOfArgument? position depth previous (tokens ++ rest) =
      lastOfArgument? position depth (tokens.getLast?.getD previous) rest := by
  induction balanced generalizing depth previous rest with
  | nil => rfl
  | @token _ token _ noOpening noClosing comma _ ih =>
    have goesOn : endsArgument depth token = false := by
      unfold endsArgument
      split
      · contradiction
      · rename_i isComma
        have := deeper (comma isComma)
        exact decide_eq_false (by omega)
      · rfl
    have sameDepth : depthBehind depth token = depth := by
      unfold depthBehind
      split <;> first | rfl | contradiction
    rw [List.cons_append, lastOfArgument?, if_neg (Bool.eq_false_iff.mp goesOn), sameDepth,
      ih inside deeper, List.getLast?_cons, Option.getD_some]
  | @parens _ opening closing inner _ opens closes _ _ ihInner ih =>
    have goesOn : endsArgument depth opening = false := by simp [endsArgument, opens]
    have goesOnBehind : endsArgument (depth + 1) closing = false := by
      simp only [endsArgument, closes, decide_eq_false_iff_not]
      omega
    have deeperInside : depthBehind depth opening = depth + 1 := by simp [depthBehind, opens]
    have sameDepth : depthBehind (depth + 1) closing = depth := by simp [depthBehind, closes]
    rw [List.cons_append, List.append_assoc, List.cons_append, lastOfArgument?,
      if_neg (Bool.eq_false_iff.mp goesOn), deeperInside,
      ihInner (Nat.le_add_left 1 depth) (fun _ => Nat.succ_le_succ inside), lastOfArgument?,
      if_neg (Bool.eq_false_iff.mp goesOnBehind), sameDepth, ih inside deeper]
    simp [List.getLast?_cons, List.getLast?_append]

theorem lastOfArgument?_unclosed {commas : Bool} (unclosed : Unclosed commas tokens) {depth : Nat}
    (inside : 1 ≤ depth) (deeper : commas = true → 2 ≤ depth) (position : Nat) (previous : Token) :
    lastOfArgument? position depth previous tokens = none := by
  induction unclosed generalizing depth previous with
  | balanced balanced =>
    have whole := lastOfArgument?_balanced balanced inside deeper position previous []
    rwa [List.append_nil] at whole
  | @opened _ _ _ opening opens balanced _ ih =>
    have goesOn : endsArgument depth opening = false := by simp [endsArgument, opens]
    have deeperInside : depthBehind depth opening = depth + 1 := by simp [depthBehind, opens]
    rw [lastOfArgument?_balanced balanced inside deeper, lastOfArgument?,
      if_neg (Bool.eq_false_iff.mp goesOn), deeperInside]
    exact ih (Nat.le_add_left 1 depth) (fun _ => Nat.succ_le_succ inside) _

/-- What does not end an argument does not close the call either. -/
theorem one_le_depthBehind {depth : Nat} {token : Token} (inside : 1 ≤ depth)
    (goesOn : endsArgument depth token = false) : 1 ≤ depthBehind depth token := by
  unfold endsArgument at goesOn
  unfold depthBehind
  split
  · omega
  · rename_i isClosing
    rw [isClosing] at goesOn
    have deeper : ¬ depth ≤ 1 := of_decide_eq_false goesOn
    omega
  · exact inside

/-- No argument stands at position zero. -/
theorem lastOfArgument?_zero (depth : Nat) (previous : Token) (tokens : List Token) :
    lastOfArgument? 0 depth previous tokens = none := by
  induction tokens generalizing depth previous with
  | nil => rfl
  | cons token following ih => simp [lastOfArgument?, ih]

/-! ## What is found -/

/-- Behind an argument, a comma or a closing parenthesis ends it. -/
theorem lastOfArgument?_append_cons {argument rest : List Token}
    (balanced : Balanced false argument)
    {ender : Token} (ends : ender.kind = .comma ∨ ender.kind = .closeParen) (place : Nat)
    (previous : Token) :
    lastOfArgument? (place + 1) 1 previous (argument ++ ender :: rest) =
      if place = 0 then some (argument.getLast?.getD previous)
      else if ender.kind = .closeParen then none
      else lastOfArgument? place 1 ender rest := by
  have endsHere : endsArgument 1 ender = true := by
    rcases ends with isComma | closes
    · simp [endsArgument, isComma]
    · simp [endsArgument, closes]
  have outside : depthBehind 1 ender = if ender.kind = .closeParen then 0 else 1 := by
    rcases ends with isComma | closes
    · simp [depthBehind, isComma]
    · simp [depthBehind, closes]
  rw [lastOfArgument?_balanced balanced (Nat.le_refl 1) (by simp), lastOfArgument?, if_pos endsHere,
    outside]
  by_cases closes : ender.kind = .closeParen
  · simp [closes]
  · by_cases first : place = 0 <;> simp [closes, first]

/-- The literal that was found, if what was found is one. -/
def literalText? (last? : Option Token) : Option String :=
  (last?.filter (·.kind = .stringLiteral)).map Token.text

/-- An argument without tokens ends in none, for what stands before it is no literal. -/
theorem literalText?_getD {previous : Token} (noLiteral : previous.kind ≠ .stringLiteral)
    (last? : Option Token) : literalText? (some (last?.getD previous)) = literalText? last? := by
  cases last? with
  | none => simp [literalText?, Option.filter, noLiteral]
  | some last => rfl

/-- In a call that is closed, the argument at a position is found, if there is one. -/
theorem literalText?_closedCall (call : ClosedCall arguments tokens) (place : Nat)
    {previous : Token} (noLiteral : previous.kind ≠ .stringLiteral) (after : List Token) :
    literalText? (lastOfArgument? (place + 1) 1 previous (tokens ++ after)) =
      endingLiteral? arguments (place + 1) := by
  induction call generalizing place previous with
  | @last argument closing closes balanced =>
    rw [List.append_assoc, List.singleton_append,
      lastOfArgument?_append_cons balanced (.inr closes),
      if_pos closes]
    cases place with
    | zero => exact literalText?_getD noLiteral _
    | succ place => rfl
  | @more argument tokens arguments comma separates balanced _ ih =>
    have noClosing : comma.kind ≠ .closeParen := by simp [separates]
    have commaNoLiteral : comma.kind ≠ .stringLiteral := by simp [separates]
    rw [List.append_assoc, List.cons_append, lastOfArgument?_append_cons balanced (.inl separates),
      if_neg noClosing]
    cases place with
    | zero => exact literalText?_getD noLiteral _
    | succ place => exact ih place commaNoLiteral

/-- In a call that is never closed, the argument at a position is found if a comma ends it. -/
theorem literalText?_openCall (call : OpenCall arguments tokens) (place : Nat) {previous : Token}
    (noLiteral : previous.kind ≠ .stringLiteral) :
    literalText? (lastOfArgument? (place + 1) 1 previous tokens) =
      endingLiteral? arguments (place + 1) := by
  induction call generalizing place previous with
  | unended unclosed =>
    rw [lastOfArgument?_unclosed unclosed (Nat.le_refl 1) (by simp)]
    rfl
  | @more argument tokens arguments comma separates balanced _ ih =>
    have noClosing : comma.kind ≠ .closeParen := by simp [separates]
    have commaNoLiteral : comma.kind ≠ .stringLiteral := by simp [separates]
    rw [lastOfArgument?_append_cons balanced (.inl separates), if_neg noClosing]
    cases place with
    | zero => exact literalText?_getD noLiteral _
    | succ place => exact ih place commaNoLiteral

/-! ## Subtractions -/

/-- How deep in parentheses one is behind a token, unless one would leave more than were entered. -/
def checkedDepth? (depth : Nat) (token : Token) : Option Nat :=
  match token.kind with
  | .openParen => some (depth + 1)
  | .closeParen => depth.ppred
  | _ => some depth

/-- Scan for the last token of an argument by index, counting the arguments that have ended.  The
scan fails where the depth or the index would fall below zero. -/
def checkedArgument? (tokens : List Token) (position : Nat) :
    Nat → Nat → Nat → List Token → Option (Option Token)
  | _, _, _, [] => some none
  | index, depth, ended, token :: following =>
    (checkedDepth? depth token).bind fun behind =>
      if token.kind = .closeParen ∧ behind = 0 ∨ token.kind = .comma ∧ behind = 1 then
        if ended + 1 = position then index.ppred.map (tokens[·]?)
        else if behind = 0 then some none
        else checkedArgument? tokens position (index + 1) behind (ended + 1) following
      else checkedArgument? tokens position (index + 1) behind ended following

/-- The literal that ends an argument of the first call in a line, by the scan that may fail. -/
def checkedLiteral? (tokens : List Token) (position : Nat) : Option (Option String) :=
  match Token.positionOf? .openParen tokens with
  | none => some none
  | some start => (checkedArgument? tokens position start 0 0 (tokens.drop start)).map literalText?

theorem checkedDepth?_eq {depth : Nat} (inside : 1 ≤ depth) (token : Token) :
    checkedDepth? depth token = some (depthBehind depth token) := by
  unfold checkedDepth? depthBehind
  generalize token.kind = kind
  cases kind with
  | closeParen => exact Nat.ppred_eq_pred inside
  | _ => rfl

theorem endsArgument_iff {depth : Nat} (inside : 1 ≤ depth) (token : Token) :
    endsArgument depth token = true ↔
      token.kind = .closeParen ∧ depthBehind depth token = 0 ∨
        token.kind = .comma ∧ depthBehind depth token = 1 := by
  unfold endsArgument depthBehind
  split
  · rename_i closes
    simp only [closes, decide_eq_true_eq, true_and, reduceCtorEq, false_and, or_false]
    omega
  · rename_i isComma
    simp [isComma]
  · simp_all

/-- Inside the parentheses of a call no subtraction fails, and the scan by index finds what stands
before the end of the argument. -/
theorem checkedArgument?_eq {tokens : List Token} {position index depth ended : Nat}
    {previous : Token} {following : List Token} (before : tokens[index]? = some previous)
    (behind : tokens.drop (index + 1) = following) (inside : 1 ≤ depth)
    (sought : ended < position ∨ position = 0) :
    checkedArgument? tokens position (index + 1) depth ended following =
      some (lastOfArgument? (position - ended) depth previous following) := by
  induction following generalizing index depth ended previous with
  | nil => rfl
  | cons token later ih =>
    have here : tokens[index + 1]? = some token := by
      rw [← List.head?_drop, behind, List.head?_cons]
    have beyond : tokens.drop (index + 1 + 1) = later := by
      rw [← List.tail_drop, behind, List.tail_cons]
    rw [checkedArgument?, checkedDepth?_eq inside, Option.bind_some, lastOfArgument?]
    by_cases ends : endsArgument depth token = true
    · rw [if_pos ends, if_pos ((endsArgument_iff inside token).mp ends)]
      by_cases found : ended + 1 = position
      · have isFirst : position - ended = 1 := by omega
        rw [if_pos found, if_pos isFirst, Nat.ppred_succ, Option.map_some, before]
      · have notFirst : ¬ position - ended = 1 := by omega
        rw [if_neg found, if_neg notFirst]
        by_cases outside : depthBehind depth token = 0
        · rw [if_pos outside, if_pos (.inl outside)]
        · have stillInside : 1 ≤ depthBehind depth token := Nat.one_le_iff_ne_zero.mpr outside
          rw [if_neg outside, ih here beyond stillInside (by omega), ← Nat.sub_sub]
          rcases sought with before | zero
          · rw [if_neg (by omega)]
          · rw [zero, Nat.zero_sub, Nat.zero_sub, if_pos (.inr rfl), lastOfArgument?_zero]
    · rw [if_neg ends, if_neg (mt (endsArgument_iff inside token).mpr ends)]
      exact ih here beyond (one_le_depthBehind inside (Bool.eq_false_iff.mpr ends)) sought

/-- No subtraction ever fails, on whatever tokens. -/
theorem checkedLiteral?_eq (tokens : List Token) (position : Nat) :
    checkedLiteral? tokens position = some (literalArgument? tokens position) := by
  have spelled : tokens.dropWhile (·.kind ≠ .openParen) =
      tokens.drop (tokens.findIdx (·.kind = .openParen)) := by
    simp [List.dropWhile_eq_drop_findIdx_not]
  rw [checkedLiteral?, literalArgument?, spelled, Token.positionOf?]
  cases found : tokens.findIdx? (·.kind = .openParen) with
  | none =>
    have noParen : tokens.findIdx (·.kind = .openParen) = tokens.length :=
      List.findIdx_eq_length.mpr (List.findIdx?_eq_none_iff.mp found)
    rw [noParen, List.drop_length]
  | some start =>
    obtain ⟨inLine, isOpening, -⟩ := List.findIdx?_eq_some_iff_getElem.mp found
    have opens : tokens[start].kind = .openParen := of_decide_eq_true isOpening
    have depthBehindIt : checkedDepth? 0 tokens[start] = some 1 := by simp [checkedDepth?, opens]
    have endsNothing : ¬ (tokens[start].kind = .closeParen ∧ 1 = 0 ∨
        tokens[start].kind = .comma ∧ 1 = 1) := by simp [opens]
    dsimp only
    rw [(List.findIdx?_eq_some_iff_findIdx_eq.mp found).2, List.drop_eq_getElem_cons inLine,
      checkedArgument?, depthBehindIt, Option.bind_some, if_neg endsNothing,
      checkedArgument?_eq (List.getElem?_eq_getElem inLine) rfl (Nat.le_refl 1) (by omega)]
    rfl

/-! ## The first call of a line -/

theorem dropWhile_openParen_eq_nil_iff {before : List Token} :
    before.dropWhile (·.kind ≠ .openParen) = [] ↔ Token.hasKind .openParen before = false := by
  rw [List.dropWhile_eq_nil_iff, Token.hasKind, List.any_eq_false]
  simp only [decide_eq_true_eq, ne_eq, decide_not, Bool.not_eq_true', decide_eq_false_iff_not]

/-- Extraction follows the structure of the first call in a line.  If the call is closed, what is
found at a position is the literal that ends the argument there, if there is such an argument, and
it ends in a literal; if the call is never closed, this holds of the arguments that are ended by a
comma, and nothing else is found.  On no line does a subtraction of the scan go below zero. -/
theorem literalArgument?_of_call :
    (∀ before opening, Token.hasKind .openParen before = false → opening.kind = .openParen →
      (∀ arguments call after position, ClosedCall arguments call →
        literalArgument? (before ++ opening :: (call ++ after)) position =
          endingLiteral? arguments position) ∧
      ∀ tokens, NeverCloses tokens → ∃ arguments, OpenCall arguments tokens ∧
        ∀ position, literalArgument? (before ++ opening :: tokens) position =
          endingLiteral? arguments position) ∧
    ∀ line position, checkedLiteral? line position = some (literalArgument? line position) := by
  refine ⟨fun before opening noParen opens => ?_, checkedLiteral?_eq⟩
  have noLiteral : opening.kind ≠ .stringLiteral := by simp [opens]
  have scanned : ∀ tokens position, literalArgument? (before ++ opening :: tokens) position =
      literalText? (lastOfArgument? position 1 opening tokens) := by
    intro tokens position
    rw [literalArgument?, List.dropWhile_append, dropWhile_openParen_eq_nil_iff.mpr noParen]
    simp [opens, literalText?]
  constructor
  · intro arguments call after position closed
    rw [scanned]
    cases position with
    | zero => rw [lastOfArgument?_zero]; rfl
    | succ place => exact literalText?_closedCall closed place noLiteral after
  · intro tokens never
    obtain ⟨arguments, openCall⟩ := never.exists_openCall
    refine ⟨arguments, openCall, fun position => ?_⟩
    rw [scanned]
    cases position with
    | zero => rw [lastOfArgument?_zero]; rfl
    | succ place => exact literalText?_openCall openCall place noLiteral

/-- A call in which an argument ends in a literal, one ends in a call with literals of its own, and
one is empty, and a call that the line does not close. -/
theorem literalArgument?_of_call_nested :
    let word (text : String) : Token := ⟨text, .identifier⟩
    let opening : Token := ⟨"(", .openParen⟩
    let closing : Token := ⟨")", .closeParen⟩
    let comma : Token := ⟨",", .comma⟩
    let sum := [word "path", ⟨"+", .symbol⟩, Token.quoted ".txt"]
    let inner := [word "Format", opening, Token.quoted "%s", comma, Token.quoted "a", closing]
    let call := sum ++ comma :: (inner ++ comma :: ([] ++ [closing]))
    let unclosed := sum ++ comma :: (inner ++ [comma, Token.quoted "b"])
    Token.hasKind .openParen [word "Open"] = false ∧ ClosedCall [sum, inner, []] call ∧
      literalArgument? ([word "Open"] ++ opening :: (call ++ [Token.quoted "c"])) 1 =
        some "\".txt\"" ∧
      literalArgument? ([word "Open"] ++ opening :: (call ++ [Token.quoted "c"])) 2 = none ∧
      literalArgument? ([word "Open"] ++ opening :: (call ++ [Token.quoted "c"])) 3 = none ∧
      NeverCloses unclosed ∧
      ∃ arguments, OpenCall arguments unclosed ∧
        literalArgument? ([word "Open"] ++ opening :: unclosed) 3 = endingLiteral? arguments 3 := by
  intro word opening closing comma sum inner call unclosed
  have noParen : Token.hasKind .openParen [word "Open"] = false := by decide
  have plain : ∀ {commas : Bool} {token : Token} {rest : List Token},
      token.kind ∉ [.openParen, .closeParen, .comma] → Balanced commas rest →
        Balanced commas (token :: rest) := by
    intro commas token rest outside balanced
    simp only [List.mem_cons, List.not_mem_nil, or_false, not_or] at outside
    exact .token outside.1 outside.2.1 (fun isComma => absurd isComma outside.2.2) balanced
  have sumBalanced : Balanced false sum :=
    plain (by decide) (plain (by decide) (plain (by decide) .nil))
  have literals : Balanced true [Token.quoted "%s", comma, Token.quoted "a"] :=
    plain (by decide) (.token (by decide) (by decide) (fun _ => rfl) (plain (by decide) .nil))
  have innerBalanced : Balanced false inner := plain (by decide) (.parens rfl rfl literals .nil)
  have closed : ClosedCall [sum, inner, []] call :=
    .more rfl sumBalanced (.more rfl innerBalanced (.last rfl .nil))
  have never : NeverCloses unclosed := by decide
  obtain ⟨found, foundOpen⟩ := literalArgument?_of_call.1 [word "Open"] opening noParen rfl
  obtain ⟨arguments, openCall, foundEnded⟩ := foundOpen unclosed never
  exact ⟨noParen, closed, found _ call [Token.quoted "c"] 1 closed,
    found _ call [Token.quoted "c"] 2 closed, found _ call [Token.quoted "c"] 3 closed, never,
    arguments, openCall, foundEnded 3⟩

end ApiReference
