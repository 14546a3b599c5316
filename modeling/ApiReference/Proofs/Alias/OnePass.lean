import ApiReference.Proofs.Alias.Walk
import Mathlib.Logic.Function.Iterate

/-!
# The walk in place as one pass

The walk rewrites the list it goes over: its place, the length of the list and the window of every
lookup move with each definition that is put in.  A pass does the same work on a list that does not
change.  It reads the tokens of the list once, from left to right, and puts out, for each of them,
either the token or the definition of the alias that it hits.

`next_place` is one round of the walk, in which it reads exactly one token of the list it was given.
By induction on the rounds the walk stands, after any number of them, behind what the pass has put
out and before the tokens that the pass has not read (`iterate_next_place`).  So it ends after as
many rounds as there were tokens, whatever the definitions are, and leaves what the pass puts out
(`substitute_eq_passOver`).
-/

set_option autoImplicit false

namespace ApiReference

/-! ## The pass -/

/-- What a pass has put out, and the aliases whose definitions it has put out. -/
structure Pass where
  output : List Token
  appended : List Alias
deriving DecidableEq, Repr

/-- Each token of a list together with the tokens behind it. -/
def withLater : List Token → List (Token × List Token)
  | [] => []
  | token :: later => (token, later) :: withLater later

namespace Pass

/-- A pass that has read nothing. -/
def start : Pass := ⟨[], []⟩

/-- Put out the definition of an alias. -/
def append (pass : Pass) (entry : Alias) : Pass :=
  ⟨pass.output ++ entry.definition, pass.appended ++ [entry]⟩

/-- Put out a token as it is. -/
def keep (pass : Pass) (token : Token) : Pass :=
  ⟨pass.output ++ [token], pass.appended⟩

/-- Read one token, before the tokens that are still to be read.  It is looked up in what was put
out so far, the token itself and the tokens behind it; if it resolves to an alias that no guard
holds back, the definition is put out, and otherwise the token. -/
def read (table : AliasTable) (mode : ScanMode) (scope : Scope) (pass : Pass)
    (original : Token × List Token) : Pass :=
  let spelled := mode.spelling original.1
  match table.resolve? spelled.text scope with
  | none => pass.keep spelled
  | some entry =>
    let window := pass.output ++ spelled :: original.2
    if AliasTable.guard? window pass.output.length mode.ownKey? entry = none then pass.append entry
    else pass.keep spelled

/-- Whether any definition was put out. -/
def changed (pass : Pass) : Bool :=
  !pass.appended.isEmpty

end Pass

/-- What a pass has done after some number of tokens. -/
def AliasTable.passOverFirst (table : AliasTable) (mode : ScanMode) (scope : Scope)
    (count : Nat) (tokens : List Token) : Pass :=
  ((withLater tokens).take count).foldl (Pass.read table mode scope) .start

/-- What a pass makes of a list. -/
def AliasTable.passOver (table : AliasTable) (mode : ScanMode) (scope : Scope)
    (tokens : List Token) : Pass :=
  (withLater tokens).foldl (Pass.read table mode scope) .start

/-! ## The walk in rounds -/

/-- Where a walk in place stands: its position, the list as far as it is rewritten, and whether
anything was substituted. -/
structure WalkState where
  position : Nat
  tokens : List Token
  changed : Bool
deriving DecidableEq, Repr

namespace WalkState

/-- The walk is not at the end of its list. -/
def GoesOn (state : WalkState) : Prop :=
  state.position < state.tokens.length

instance (state : WalkState) : Decidable state.GoesOn :=
  inferInstanceAs (Decidable (_ < _))

/-- One round of a walk: nothing happens at the end of the list. -/
def next (table : AliasTable) (mode : ScanMode) (scope : Scope) (state : WalkState) : WalkState :=
  if state.GoesOn then
    let window := state.tokens.modify state.position mode.spelling
    match table.lookup window state.position scope mode.ownKey? with
    | .hit entry =>
      ⟨Token.resumeAfterSplice state.position entry.definition window,
        Token.splice state.position entry.definition window, true⟩
    | _ => ⟨state.position + 1, window, state.changed⟩
  else state

end WalkState

/-- Where the walk over a list stands after some number of rounds. -/
def AliasTable.walkAfter (table : AliasTable) (mode : ScanMode) (scope : Scope) (rounds : Nat)
    (tokens : List Token) : WalkState :=
  (WalkState.next table mode scope)^[rounds] ⟨0, tokens, false⟩

variable {table : AliasTable} {mode : ScanMode} {scope : Scope}

/-! ## One round reads one token -/

theorem Lookup.exists_hit_or (found : Lookup) : (∃ entry, found = .hit entry) ∨ found.isHit = false := by
  cases found <;> simp [isHit]

namespace WalkState

variable {state : WalkState}

theorem next_of_hit {entry : Alias} (goesOn : state.GoesOn)
    (hit : table.lookup (state.tokens.modify state.position mode.spelling) state.position scope
      mode.ownKey? = .hit entry) :
    state.next table mode scope =
      ⟨state.position + entry.definition.length,
        Token.splice state.position entry.definition
          (state.tokens.modify state.position mode.spelling), true⟩ := by
  have inside : state.position < (state.tokens.modify state.position mode.spelling).length := by
    rwa [List.length_modify]
  rw [next, if_pos goesOn]
  simp only [hit, Token.resumeAfterSplice, if_pos inside]

theorem next_of_noHit (goesOn : state.GoesOn)
    (noHit : (table.lookup (state.tokens.modify state.position mode.spelling) state.position scope
      mode.ownKey?).isHit = false) :
    state.next table mode scope =
      ⟨state.position + 1, state.tokens.modify state.position mode.spelling, state.changed⟩ := by
  rw [next, if_pos goesOn]
  cases outcome : table.lookup (state.tokens.modify state.position mode.spelling) state.position
      scope mode.ownKey? with
  | miss => simp only [outcome]
  | guarded entry guard => simp only [outcome]
  | hit entry =>
    rw [outcome] at noHit
    contradiction

theorem next_of_ended (ended : ¬ state.GoesOn) : state.next table mode scope = state := by
  rw [next, if_neg ended]

/-- What the walk leaves that goes on from here. -/
def outcome (table : AliasTable) (mode : ScanMode) (scope : Scope) (state : WalkState) :
    List Token × Bool :=
  ((table.scanFrom mode scope state.position state.tokens).1,
    state.changed || (table.scanFrom mode scope state.position state.tokens).2)

/-- A round of the walk does not change what it leaves in the end. -/
theorem outcome_next (state : WalkState) :
    (state.next table mode scope).outcome table mode scope = state.outcome table mode scope := by
  by_cases goesOn : state.GoesOn
  · rcases Lookup.exists_hit_or (table.lookup (state.tokens.modify state.position mode.spelling)
        state.position scope mode.ownKey?) with ⟨entry, hit⟩ | noHit
    · rw [next_of_hit goesOn hit, outcome, outcome, AliasTable.scanFrom_hit goesOn hit,
        Bool.true_or, Bool.or_true]
    · rw [next_of_noHit goesOn noHit, outcome, outcome, AliasTable.scanFrom_pass goesOn noHit]
  · rw [next_of_ended goesOn]

theorem outcome_iterate_next (start : WalkState) (rounds : Nat) :
    ((next table mode scope)^[rounds] start).outcome table mode scope =
      start.outcome table mode scope := by
  induction rounds with
  | zero => rfl
  | succ rounds ih => rw [Function.iterate_succ_apply', outcome_next, ih]

theorem outcome_of_ended (ended : ¬ state.GoesOn) :
    state.outcome table mode scope = (state.tokens, state.changed) := by
  rw [outcome, AliasTable.scanFrom_end (Nat.not_lt.mp ended), Bool.or_false]

end WalkState

namespace Pass

variable {pass : Pass} {token : Token} {later : List Token}

theorem read_of_hit {entry : Alias}
    (hit : table.lookup (pass.output ++ mode.spelling token :: later) pass.output.length scope
      mode.ownKey? = .hit entry) :
    pass.read table mode scope (token, later) = pass.append entry := by
  obtain ⟨resolved, unguarded⟩ := AliasTable.resolve?_of_hit_behind hit
  simp only [read, resolved, if_pos unguarded]

theorem read_of_noHit
    (noHit : (table.lookup (pass.output ++ mode.spelling token :: later) pass.output.length scope
      mode.ownKey?).isHit = false) :
    pass.read table mode scope (token, later) = pass.keep (mode.spelling token) := by
  unfold read
  cases resolved : table.resolve? (mode.spelling token).text scope with
  | none => simp only [resolved]
  | some entry =>
    have held := AliasTable.isHit_behind_eq_false_iff.mp noHit entry resolved
    simp only [resolved, if_neg held]

/-- Where the walk stands when the pass has read all tokens but the later ones. -/
def place (pass : Pass) (later : List Token) : WalkState :=
  ⟨pass.output.length, pass.output ++ later, pass.changed⟩

theorem goesOn_place_iff : (pass.place later).GoesOn ↔ later ≠ [] := by
  simp [WalkState.GoesOn, place, List.length_pos_iff]

end Pass

/-- One round of the walk reads one token of the list, as the pass does. -/
theorem next_place (pass : Pass) (token : Token) (later : List Token) :
    (pass.place (token :: later)).next table mode scope =
      (pass.read table mode scope (token, later)).place later := by
  have goesOn : (pass.place (token :: later)).GoesOn := Pass.goesOn_place_iff.mpr (by simp)
  have window : (pass.place (token :: later)).tokens.modify (pass.place (token :: later)).position
      mode.spelling = pass.output ++ mode.spelling token :: later :=
    AliasTable.modify_behind pass.output token later
  rcases Lookup.exists_hit_or (table.lookup (pass.output ++ mode.spelling token :: later)
      pass.output.length scope mode.ownKey?) with ⟨entry, hit⟩ | noHit
  · rw [WalkState.next_of_hit goesOn (by rw [window]; exact hit), Pass.read_of_hit hit, window]
    simp [Pass.place, Pass.append, Pass.changed, AliasTable.splice_behind]
  · rw [WalkState.next_of_noHit goesOn (by rw [window]; exact noHit), Pass.read_of_noHit noHit,
      window]
    simp [Pass.place, Pass.keep, Pass.changed]

/-- A walk at its end stays there. -/
theorem iterate_next_ended (pass : Pass) (rounds : Nat) :
    (WalkState.next table mode scope)^[rounds] (pass.place []) = pass.place [] :=
  Function.iterate_fixed
    (WalkState.next_of_ended (Pass.goesOn_place_iff.not.mpr (by simp))) rounds

/-- After some rounds the walk stands behind what the pass makes of as many tokens, and before the
others. -/
theorem iterate_next_place (pass : Pass) (tokens : List Token) (rounds : Nat) :
    (WalkState.next table mode scope)^[rounds] (pass.place tokens) =
      (((withLater tokens).take rounds).foldl (Pass.read table mode scope) pass).place
        (tokens.drop rounds) := by
  induction tokens generalizing pass rounds with
  | nil => rw [iterate_next_ended, withLater, List.take_nil, List.drop_nil, List.foldl_nil]
  | cons token later ih =>
    cases rounds with
    | zero => rfl
    | succ rounds =>
      rw [Function.iterate_succ_apply, next_place, ih, withLater, List.take_succ_cons,
        List.drop_succ_cons, List.foldl_cons]

theorem length_withLater (tokens : List Token) : (withLater tokens).length = tokens.length := by
  induction tokens with
  | nil => rfl
  | cons token later ih => rw [withLater, List.length_cons, List.length_cons, ih]

theorem passOverFirst_length (tokens : List Token) :
    table.passOverFirst mode scope tokens.length tokens = table.passOver mode scope tokens := by
  rw [AliasTable.passOverFirst, AliasTable.passOver, ← length_withLater tokens, List.take_length]

theorem walkAfter_eq_place (rounds : Nat) (tokens : List Token) :
    table.walkAfter mode scope rounds tokens =
      (table.passOverFirst mode scope rounds tokens).place (tokens.drop rounds) :=
  iterate_next_place Pass.start tokens rounds

theorem goesOn_walkAfter_iff {rounds : Nat} {tokens : List Token} :
    (table.walkAfter mode scope rounds tokens).GoesOn ↔ rounds < tokens.length := by
  rw [walkAfter_eq_place, Pass.goesOn_place_iff, ne_eq, List.drop_eq_nil_iff, Nat.not_le]

/-- Substituting leaves what stands where the walk has come to its end. -/
theorem substitute_eq_of_ended {rounds : Nat} {tokens : List Token}
    (ended : ¬ (table.walkAfter mode scope rounds tokens).GoesOn) :
    table.substitute mode scope tokens =
      ((table.walkAfter mode scope rounds tokens).tokens,
        (table.walkAfter mode scope rounds tokens).changed) := by
  calc table.substitute mode scope tokens
      = WalkState.outcome table mode scope ⟨0, tokens, false⟩ := by
        rw [WalkState.outcome, Bool.false_or]
        rfl
    _ = (table.walkAfter mode scope rounds tokens).outcome table mode scope :=
        (WalkState.outcome_iterate_next _ rounds).symm
    _ = _ := WalkState.outcome_of_ended ended

/-- The walk in place is one pass.  Substituting leaves what a pass over the list puts out, and
tells whether the pass put out any definition; it takes as many rounds as the list has tokens.
After any number of rounds the walk stands behind what the pass makes of as many tokens and before
the others, which are as they were.  So each round reads the next token of the list, and none reads
a token of a definition that was put in. -/
theorem substitute_eq_passOver (table : AliasTable) (mode : ScanMode) (scope : Scope)
    (tokens : List Token) :
    table.substitute mode scope tokens =
        ((table.passOver mode scope tokens).output, (table.passOver mode scope tokens).changed) ∧
      table.substitute mode scope tokens =
        ((table.walkAfter mode scope tokens.length tokens).tokens,
          (table.walkAfter mode scope tokens.length tokens).changed) ∧
      ∀ rounds : Nat,
        let state := table.walkAfter mode scope rounds tokens
        let pass := table.passOverFirst mode scope rounds tokens
        state = ⟨pass.output.length, pass.output ++ tokens.drop rounds, pass.changed⟩ ∧
          state.tokens[state.position]? = tokens[rounds]? ∧
          (state.GoesOn ↔ rounds < tokens.length) := by
  have ended : ¬ (table.walkAfter mode scope tokens.length tokens).GoesOn :=
    goesOn_walkAfter_iff.not.mpr (Nat.lt_irrefl _)
  have leaves := substitute_eq_of_ended ended
  refine ⟨?_, leaves, fun rounds => ⟨walkAfter_eq_place rounds tokens, ?_, goesOn_walkAfter_iff⟩⟩
  · rw [leaves, walkAfter_eq_place, passOverFirst_length, List.drop_length, Pass.place,
      List.append_nil]
  · rw [walkAfter_eq_place, Pass.place, List.getElem?_append_right (Nat.le_refl _), Nat.sub_self,
      List.getElem?_drop, Nat.add_zero]

end ApiReference
