import ApiReference.Library.Ancestors

/-!
# Comments

A declaration of a method that stands in a source comment belongs to a class of the library.  It is
absorbed into the method of the class it agrees with.  If only an ancestor has such a method, the
class gets a copy of it, and the copy absorbs the comment.
-/

namespace ApiReference

set_option autoImplicit false

/-- What became of a comment. -/
inductive CommentOutcome where
  /-- A method of the class itself has absorbed it. -/
  | merged
  /-- A copy of an ancestor's method has absorbed it. -/
  | inherited
  /-- Neither the class nor an ancestor has a method it agrees with. -/
  | unmatched
  /-- The class is not in the library. -/
  | unknownClass
deriving DecidableEq, Repr

namespace CommentOutcome

/-- What there is to say about the outcome of a comment. -/
def finding? (className method : String) : CommentOutcome → Option Finding
  | merged | inherited => none
  | unmatched => some (.unmatchedComment className method)
  | unknownClass => some (.commentOnUnknownClass className method)

end CommentOutcome

namespace Library

/-- Add a comment on a method of a class.  Its types are seen from the scope of the class. -/
def addComment (library : Library) (className : String) (comment : Method)
    (expanded : ExpandedTable) : Library × CommentOutcome :=
  match library.page? className with
  | none => (library, .unknownClass)
  | some page =>
    let later := comment.normalize expanded page.scope
    match page.matching? later.signature with
    | some found =>
      (library.modify className fun page =>
        { page with methods := Method.absorbAt found later page.methods }, .merged)
    | none =>
      match (library.ancestors className).findSome? (·.matching? later.signature) with
      | some found =>
        (library.modify className fun page =>
          { page with
            methods :=
              Method.insertGrouped page.methods (found.method.absorb later found.agreement) },
          .inherited)
      | none => (library, .unmatched)

end Library

end ApiReference
