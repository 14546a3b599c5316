import ApiReference.Token.Sequence

/-!
# Arguments of calls

The arguments of the first call on a source line.  Commas at the depth of the call's own parentheses
separate them, and the parenthesis that closes the call ends the last one.  An argument counts as a
literal if the token that ends it directly follows one, so that `Call("a" + b, c)` has no literal
for its first argument.
-/

namespace ApiReference

set_option autoImplicit false

/-- How deep in parentheses one is behind a token; more are never closed than were opened. -/
def depthBehind (depth : Nat) (token : Token) : Nat :=
  match token.kind with
  | .openParen => depth + 1
  | .closeParen => depth - 1
  | _ => depth

/-- The token ends an argument of the call whose parentheses are the outermost. -/
def endsArgument (depth : Nat) (token : Token) : Bool :=
  match token.kind with
  | .closeParen => depth ≤ 1
  | .comma => depth = 1
  | _ => false

/-- The last token of the argument at a position, counted from one among those to come.  The token
before the list is `previous`. -/
def lastOfArgument? (position depth : Nat) (previous : Token) : List Token → Option Token
  | [] => none
  | token :: following =>
    if endsArgument depth token then
      if position = 1 then some previous
      else if depthBehind depth token = 0 ∨ position = 0 then none
      else lastOfArgument? (position - 1) (depthBehind depth token) token following
    else lastOfArgument? position (depthBehind depth token) token following

/-- The literal that ends the argument at a position, counted from one, of the first call in a
line.  Its text includes the quotes. -/
def literalArgument? (line : List Token) (position : Nat) : Option String :=
  match line.dropWhile (·.kind ≠ .openParen) with
  | [] => none
  | opening :: following =>
    ((lastOfArgument? position 1 opening following).filter (·.kind = .stringLiteral)).map
      Token.text

end ApiReference
