import ApiReference.Library.Comment
import ApiReference.Proofs.Library.Pages
import ApiReference.Proofs.Member.Overloads

/-!
# What a comment changes

A comment has one of four outcomes (`addComment_cases`), and in each of them it changes at most the
methods of the class it is on.  When it is added again, the class itself has the method that has
absorbed it, this is the first that agrees with it, and there is nothing left to absorb
(`addComment_local`).

A comment need not leave the overloads of a class distinct, even if they were.  A copy of an
ancestor's method is put into the class because the comment agrees with no method there; but where
both the comment and the ancestor's method needed wildcards, the copy keeps the types of the
ancestor's method, and these may agree with those of another method of the class.  That is the only
case (`hasDistinctOverloads_addComment_iff`), and it does occur
(`hasDistinctOverloads_addComment_copied`).
-/

set_option autoImplicit false

namespace ApiReference

/-- What a comment with an outcome has done to a library, of which it may change one class. -/
def CommentOutcome.Effect (before after : Library) (className : String) : CommentOutcome → Prop
  | merged => ∃ page front earlier behind method, before.page? className = some page ∧
      page.methods = front ++ earlier :: behind ∧ method.name = earlier.name ∧
      after.page? className = some { page with methods := front ++ method :: behind }
  | inherited => ∃ page front behind copy, before.page? className = some page ∧
      page.methods = front ++ behind ∧
      after.page? className = some { page with methods := front ++ copy :: behind }
  | unmatched => after = before
  | unknownClass => after = before

namespace Library

variable {library : Library} {className : String} {comment : Method} {expanded : ExpandedTable}
  {page : ClassPage} {methods : List Method}

/-! ## The methods of one class -/

/-- The library with other methods in a class. -/
def setMethods (library : Library) (className : String) (methods : List Method) : Library :=
  library.modify className fun page => { page with methods }

theorem page?_setMethods (known : library.page? className = some page) :
    (library.setMethods className methods).page? className = some { page with methods } :=
  page?_modify known

theorem page?_setMethods_of_ne {other : String} (different : other ≠ className) :
    (library.setMethods className methods).page? other = library.page? other :=
  page?_modify_of_ne different

/-- What does not look at methods sees no change. -/
theorem map_pages_setMethods {β : Type} {view : ClassPage → β} (library : Library)
    (className : String) (methods : List Method)
    (keepsView : ∀ page : ClassPage, view { page with methods } = view page) :
    (library.setMethods className methods).pages.map view = library.pages.map view :=
  map_pages_modify _ keepsView

theorem setMethods_eq_self (known : library.page? className = some page) :
    library.setMethods className page.methods = library :=
  modify_eq_self known rfl

/-! ## The outcomes -/

theorem addComment_of_matching? {found : MatchingMethod}
    (known : library.page? className = some page)
    (matched : page.matching? (comment.normalize expanded page.scope).signature = some found) :
    library.addComment className comment expanded =
      (library.setMethods className
        (Method.absorbAt found (comment.normalize expanded page.scope) page.methods), .merged) := by
  rw [addComment, known]
  dsimp only
  rw [matched]
  exact congrArg (·, CommentOutcome.merged) (modify_congr known rfl)

theorem addComment_of_ancestor {found : MatchingMethod}
    (known : library.page? className = some page)
    (none : page.matching? (comment.normalize expanded page.scope).signature = none)
    (matched : (library.ancestors className).findSome?
      (·.matching? (comment.normalize expanded page.scope).signature) = some found) :
    library.addComment className comment expanded =
      (library.setMethods className (Method.insertGrouped page.methods
        (found.method.absorb (comment.normalize expanded page.scope) found.agreement)),
        .inherited) := by
  rw [addComment, known]
  dsimp only
  rw [none]
  dsimp only
  rw [matched]
  exact congrArg (·, CommentOutcome.inherited) (modify_congr known rfl)

/-- A comment is on no class of the library, or a method of the class absorbs it, or a copy of an
ancestor's method does, or it agrees with no method. -/
@[elab_as_elim]
theorem addComment_cases {motive : Library × CommentOutcome → Prop}
    (unknownClass : library.page? className = none → motive (library, .unknownClass))
    (merged : ∀ page found, library.page? className = some page →
      page.matching? (comment.normalize expanded page.scope).signature = some found →
        motive (library.setMethods className
          (Method.absorbAt found (comment.normalize expanded page.scope) page.methods), .merged))
    (inherited : ∀ page found, library.page? className = some page →
      page.matching? (comment.normalize expanded page.scope).signature = none →
      (library.ancestors className).findSome?
        (·.matching? (comment.normalize expanded page.scope).signature) = some found →
        motive (library.setMethods className (Method.insertGrouped page.methods
          (found.method.absorb (comment.normalize expanded page.scope) found.agreement)),
          .inherited))
    (unmatched : ∀ page, library.page? className = some page →
      page.matching? (comment.normalize expanded page.scope).signature = none →
      (library.ancestors className).findSome?
        (·.matching? (comment.normalize expanded page.scope).signature) = none →
        motive (library, .unmatched)) :
    motive (library.addComment className comment expanded) := by
  cases known : library.page? className with
  | none =>
    have result : library.addComment className comment expanded = (library, .unknownClass) := by
      rw [addComment, known]
    exact result ▸ unknownClass known
  | some page =>
    cases own : page.matching? (comment.normalize expanded page.scope).signature with
    | some found => exact addComment_of_matching? known own ▸ merged page found known own
    | none =>
      cases above : (library.ancestors className).findSome?
          (·.matching? (comment.normalize expanded page.scope).signature) with
      | some found =>
        exact addComment_of_ancestor known own above ▸ inherited page found known own above
      | none =>
        have result : library.addComment className comment expanded = (library, .unmatched) := by
          rw [addComment, known]
          dsimp only
          rw [own]
          dsimp only
          rw [above]
        exact result ▸ unmatched page known own above

/-- A method of an ancestor that is found for a signature agrees with it as is said. -/
theorem agreement?_of_findSome? {signature : Signature} {pages : List ClassPage}
    {found : MatchingMethod} (matched : pages.findSome? (·.matching? signature) = some found) :
    found.method.signature.agreement? signature = some found.agreement := by
  obtain ⟨page, -, matchedHere⟩ := List.exists_of_findSome?_eq_some matched
  obtain ⟨-, -, -, -, -, agree⟩ := Method.exists_of_matching? matchedHere
  exact agree

/-! ## Adding a comment again -/

/-- A comment that some method of the class has absorbed changes nothing. -/
theorem addComment_of_absorbed {front behind : List Method} {method : Method}
    {settled : Agreement} (known : library.page? className = some page)
    (shape : page.methods = front ++ method :: behind)
    (none : Method.matching? (comment.normalize expanded page.scope).signature front = none)
    (agree : method.agreement? (comment.normalize expanded page.scope) = some settled)
    (absorbed : method.absorb (comment.normalize expanded page.scope) settled = method) :
    library.addComment className comment expanded = (library, .merged) := by
  have matched : page.matching? (comment.normalize expanded page.scope).signature =
      some ⟨front.length, method, settled⟩ := by
    rw [ClassPage.matching?, shape]
    exact Method.matching?_append_cons none agree
  rw [addComment_of_matching? known matched, shape, Method.absorbAt_append_cons _ rfl, absorbed,
    ← shape, setMethods_eq_self known]

/-- Once a method of a class has absorbed a comment, be it a copy of an ancestor's, the same comment
changes nothing. -/
theorem addComment_addComment
    (absorbed : (library.addComment className comment expanded).2 = .merged ∨
      (library.addComment className comment expanded).2 = .inherited) :
    (library.addComment className comment expanded).1.addComment className comment expanded =
      ((library.addComment className comment expanded).1, .merged) := by
  revert absorbed
  refine addComment_cases ?unknownClass ?merged ?inherited ?unmatched
  case unknownClass => simp
  case merged =>
    intro page found known own _
    obtain ⟨front, behind, split, position, none, agree⟩ := Method.exists_of_matching? own
    obtain ⟨settled, agreeAgain, unchanged⟩ := Method.absorb_absorb agree
    rw [split, Method.absorbAt_append_cons _ position]
    exact addComment_of_absorbed (page?_setMethods known) rfl none agreeAgain unchanged
  case inherited =>
    intro page found known own above _
    obtain ⟨settled, agreeAgain, unchanged⟩ := Method.absorb_absorb (agreement?_of_findSome? above)
    obtain ⟨front, behind, split, inserted, -⟩ := Method.exists_insertGrouped page.methods
      (found.method.absorb (comment.normalize expanded page.scope) found.agreement)
    have none := Method.matching?_eq_none_iff.mpr fun method (member : method ∈ front) =>
      Method.matching?_eq_none_iff.mp own method (split ▸ List.mem_append_left behind member)
    rw [inserted]
    exact addComment_of_absorbed (page?_setMethods known) rfl none agreeAgain unchanged
  case unmatched => simp

/-! ## What stays -/

theorem addComment_eq_or_eq_setMethods (library : Library) (className : String) (comment : Method)
    (expanded : ExpandedTable) :
    (library.addComment className comment expanded).1 = library ∨
      ∃ methods, (library.addComment className comment expanded).1 =
        library.setMethods className methods := by
  refine addComment_cases ?unknownClass ?merged ?inherited ?unmatched
  case unknownClass => exact fun _ => Or.inl rfl
  case merged => exact fun _ _ _ _ => Or.inr ⟨_, rfl⟩
  case inherited => exact fun _ _ _ _ _ => Or.inr ⟨_, rfl⟩
  case unmatched => exact fun _ _ _ _ => Or.inl rfl

/-- A comment changes nothing outside the class it is on. -/
theorem addComment_frame (library : Library) (className : String) (comment : Method)
    (expanded : ExpandedTable) :
    let after := (library.addComment className comment expanded).1
    after.events = library.events ∧ after.enumerations = library.enumerations ∧
      after.flags = library.flags ∧
      after.pages.map ClassPage.name = library.pages.map ClassPage.name ∧
      ∀ other, other ≠ className → after.page? other = library.page? other := by
  dsimp only
  rcases library.addComment_eq_or_eq_setMethods className comment expanded with
    same | ⟨methods, changed⟩
  · rw [same]
    exact ⟨rfl, rfl, rfl, rfl, fun _ _ => rfl⟩
  · rw [changed]
    exact ⟨rfl, rfl, rfl, names_modify library className _ _, fun other => page?_setMethods_of_ne⟩

/-- In the class it is on, a comment changes one method, or adds one, or nothing. -/
theorem addComment_effect (library : Library) (className : String) (comment : Method)
    (expanded : ExpandedTable) :
    (library.addComment className comment expanded).2.Effect library
      (library.addComment className comment expanded).1 className := by
  refine addComment_cases ?unknownClass ?merged ?inherited ?unmatched
  case unknownClass => exact fun _ => rfl
  case merged =>
    intro page found known own
    obtain ⟨front, behind, split, position, -, -⟩ := Method.exists_of_matching? own
    let absorbed := found.method.absorb (comment.normalize expanded page.scope) found.agreement
    refine ⟨page, front, found.method, behind, absorbed, known, split, Method.name_absorb _ _ _, ?_⟩
    rw [page?_setMethods known, split, Method.absorbAt_append_cons _ position]
  case inherited =>
    intro page found known own above
    let copy := found.method.absorb (comment.normalize expanded page.scope) found.agreement
    obtain ⟨front, behind, split, inserted, -⟩ := Method.exists_insertGrouped page.methods copy
    refine ⟨page, front, behind, copy, known, split, ?_⟩
    rw [page?_setMethods known, inserted]
  case unmatched => exact fun _ _ _ _ => rfl

/-- A comment changes no other class than the one it is on, nor the events, enumerations and flags.
In that class one method in its place absorbs it, or one method is put between the others, or
nothing changes.  If a method has absorbed it, adding it again has the outcome that a method of the
class absorbs it, and leaves the library as it is. -/
theorem addComment_local (library : Library) (className : String) (comment : Method)
    (expanded : ExpandedTable) :
    let after := (library.addComment className comment expanded).1
    let outcome := (library.addComment className comment expanded).2
    (after.events = library.events ∧ after.enumerations = library.enumerations ∧
      after.flags = library.flags ∧
      after.pages.map ClassPage.name = library.pages.map ClassPage.name ∧
      ∀ other, other ≠ className → after.page? other = library.page? other) ∧
    outcome.Effect library after className ∧
    (outcome = .merged ∨ outcome = .inherited →
      after.addComment className comment expanded = (after, .merged)) :=
  ⟨library.addComment_frame className comment expanded,
    library.addComment_effect className comment expanded, addComment_addComment⟩

/-! ## Distinct overloads -/

/-- No class declares an overload twice. -/
def HasDistinctOverloads (library : Library) : Prop :=
  ∀ page ∈ library.pages, page.HasDistinctOverloads

instance (library : Library) : Decidable library.HasDistinctOverloads :=
  inferInstanceAs (Decidable (∀ page ∈ library.pages, page.HasDistinctOverloads))

theorem hasDistinctOverloads_setMethods_iff (distinct : library.HasDistinctOverloads)
    (known : library.page? className = some page) :
    (library.setMethods className methods).HasDistinctOverloads ↔
      Method.DistinctOverloads methods := by
  constructor
  · intro distinctAfter
    exact distinctAfter _ (page?_eq_some_iff.mp (page?_setMethods known)).1
  · intro distinctMethods candidate member
    have found := page?_eq_some_iff.mpr ⟨member, rfl⟩
    by_cases same : candidate.name = className
    · rw [same, page?_setMethods known] at found
      obtain rfl := Option.some.inj found
      exact distinctMethods
    · rw [page?_setMethods_of_ne same] at found
      exact distinct candidate (page?_eq_some_iff.mp found).1

/-- A comment that agrees with no method of its class makes the class copy a method of an ancestor
with which another method of the class agrees, since the copy does not take the comment's types:
both needed wildcards. -/
def CopiesDeclaredOverload (library : Library) (className : String) (comment : Method)
    (expanded : ExpandedTable) : Prop :=
  ∃ page found, library.page? className = some page ∧
    page.matching? (comment.normalize expanded page.scope).signature = none ∧
    (library.ancestors className).findSome?
      (·.matching? (comment.normalize expanded page.scope).signature) = some found ∧
    found.agreement = ⟨true, true⟩ ∧ page.matching? found.method.signature ≠ none

theorem copiesDeclaredOverload_iff {found : MatchingMethod}
    (known : library.page? className = some page)
    (own : page.matching? (comment.normalize expanded page.scope).signature = none)
    (above : (library.ancestors className).findSome?
      (·.matching? (comment.normalize expanded page.scope).signature) = some found) :
    library.CopiesDeclaredOverload className comment expanded ↔
      found.agreement = ⟨true, true⟩ ∧ page.matching? found.method.signature ≠ none := by
  constructor
  · rintro ⟨samePage, sameFound, known', -, above', copied⟩
    obtain rfl := Option.some.inj (known.symm.trans known')
    obtain rfl := Option.some.inj (above.symm.trans above')
    exact copied
  · exact fun copied => ⟨page, found, known, own, above, copied⟩

/-- The copy of a method stands apart from the other methods of the class exactly if it took the
comment's types or none of them agrees with the method itself. -/
theorem copy_apart_iff {found : MatchingMethod} {later : Method}
    (agree : found.method.agreement? later = some found.agreement)
    (own : Method.matching? later.signature methods = none) :
    (∀ other ∈ methods,
        ¬ (found.method.absorb later found.agreement).signature.Agrees other.signature) ↔
      ¬ (found.agreement = ⟨true, true⟩ ∧
        Method.matching? found.method.signature methods ≠ none) := by
  by_cases bothSides : found.agreement = ⟨true, true⟩
  · have keeps : found.agreement.canonicalSide ≠ .later := by
      rw [bothSides]
      decide
    rw [Method.signature_absorb agree, if_neg keeps, and_iff_right bothSides, not_not,
      Method.matching?_eq_none_iff]
    exact forall₂_congr fun other _ => not_congr Signature.agrees_comm
  · refine iff_of_true (fun other member agrees => ?_) (fun copied => bothSides copied.1)
    refine Method.matching?_eq_none_iff.mp own other member ?_
    exact ((Method.later_covers_absorb agree bothSides).agrees agrees).symm

/-- Adding a comment leaves overloads distinct exactly if it does not make the class copy an
overload that it declares already. -/
theorem hasDistinctOverloads_addComment_iff (distinct : library.HasDistinctOverloads)
    (className : String) (comment : Method) (expanded : ExpandedTable) :
    (library.addComment className comment expanded).1.HasDistinctOverloads ↔
      ¬ library.CopiesDeclaredOverload className comment expanded := by
  refine addComment_cases ?unknownClass ?merged ?inherited ?unmatched
  case unknownClass =>
    intro unknown
    refine iff_of_true distinct ?_
    rintro ⟨page, found, known, -⟩
    rw [unknown] at known
    cases known
  case merged =>
    intro page found known own
    rw [hasDistinctOverloads_setMethods_iff distinct known]
    have distinctPage := distinct page (page?_eq_some_iff.mp known).1
    refine iff_of_true (Method.DistinctOverloads.absorbAt distinctPage own) ?_
    rintro ⟨samePage, found', known', none, -⟩
    obtain rfl := Option.some.inj (known.symm.trans known')
    rw [own] at none
    cases none
  case inherited =>
    intro page found known own above
    have distinctPage := distinct page (page?_eq_some_iff.mp known).1
    rw [hasDistinctOverloads_setMethods_iff distinct known,
      Method.distinctOverloads_insertGrouped_iff distinctPage,
      copiesDeclaredOverload_iff known own above]
    exact copy_apart_iff (agreement?_of_findSome? above) own
  case unmatched =>
    intro page known own above
    refine iff_of_true distinct ?_
    rintro ⟨samePage, found, known', none, above', -⟩
    obtain rfl := Option.some.inj (known.symm.trans known')
    rw [above] at above'
    cases above'

/-- The comment is absorbed by a copy of `any Find(String)`, which keeps its types.  In the second
class it stands beside a method that takes something else, and no overload is declared twice. -/
theorem hasDistinctOverloads_addComment_iff_apart :
    let find (returnType key : String) : Method :=
      ⟨"Find", "", [⟨"key", "", tokenize key⟩], tokenize returnType, false, []⟩
    let library :=
      ((ofEvents .empty).addPages
        [{ ClassPage.ofName "Object" with methods := [find "any" "String"] },
          { ClassPage.ofName "Space" with
            base? := some "Object", methods := [find "Cog" "int"] }]).1
    library.HasDistinctOverloads ∧
      (library.addComment "Space" (find "Level" "any") .empty).2 = .inherited ∧
      (library.addComment "Space" (find "Level" "any") .empty).1.HasDistinctOverloads := by
  intro find library
  have distinct : library.HasDistinctOverloads := by decide +kernel
  have apart : ∀ page ∈ library.page? "Space",
      ∀ found ∈ (library.ancestors "Space").findSome?
        (·.matching? ((find "Level" "any").normalize .empty page.scope).signature),
          page.matching? found.method.signature = none := by
    decide +kernel
  refine ⟨distinct, by decide +kernel,
    (hasDistinctOverloads_addComment_iff distinct "Space" (find "Level" "any") .empty).mpr ?_⟩
  rintro ⟨page, found, known, -, above, -, declared⟩
  exact declared (apart page known found above)

/-- The comment `Space Find(any)` does not agree with `Cog Find(String)`, but makes the class copy
`any Find(String)`, which does. -/
theorem hasDistinctOverloads_addComment_copied :
    let find (returnType key : String) : Method :=
      ⟨"Find", "", [⟨"key", "", tokenize key⟩], tokenize returnType, false, []⟩
    let library :=
      ((ofEvents .empty).addPages
        [{ ClassPage.ofName "Base" with methods := [find "any" "String"] },
          { ClassPage.ofName "Derived" with
            base? := some "Base", methods := [find "Cog" "String"] }]).1
    library.HasDistinctOverloads ∧
      (library.addComment "Derived" (find "Space" "any") .empty).2 = .inherited ∧
      ¬ (library.addComment "Derived" (find "Space" "any") .empty).1.HasDistinctOverloads := by
  decide +kernel

end Library

end ApiReference
