import ApiReference.Alias.Closure
import ApiReference.Member.Signature

/-!
# Methods

The documentation of a method: its signature, descriptions, and the exceptions it may raise.  A
second declaration of the same overload is absorbed into the first.  What a declaration leaves empty
never replaces anything, the later description and the later names of parameters win, the first
description of a parameter stays, and the types change only when the earlier declaration alone held
wildcards.
-/

namespace ApiReference

set_option autoImplicit false

/-- An exception that a method may raise, as it is shown to the user. -/
structure RaisedException where
  title : String
  message : String
deriving DecidableEq, Repr, Inhabited

/-- A parameter of a method. -/
structure Parameter where
  name : String
  description : String
  type : List Token
deriving DecidableEq, Repr, Inhabited

/-- A method of a class. -/
structure Method where
  name : String
  description : String
  parameters : List Parameter
  returnType : List Token
  isStatic : Bool
  exceptions : List RaisedException
deriving DecidableEq, Repr, Inhabited

namespace Parameter

/-- Take over what another declaration says about a parameter, and its type if asked to. -/
def absorb (adoptType : Bool) (earlier later : Parameter) : Parameter where
  name := if later.name = "" then earlier.name else later.name
  description := if earlier.description = "" then later.description else earlier.description
  type := if adoptType then later.type else earlier.type

end Parameter

/-- Take over, parameter by parameter, what another declaration says; where it has no further
parameter nothing changes. -/
def absorbParameters (adoptTypes : Bool) : List Parameter → List Parameter → List Parameter
  | earlier :: earlierRest, later :: laterRest =>
    earlier.absorb adoptTypes later :: absorbParameters adoptTypes earlierRest laterRest
  | earlier, _ => earlier

namespace Method

/-- The signature of a method. -/
def signature (method : Method) : Signature :=
  ⟨method.name, method.returnType, method.parameters.map Parameter.type⟩

/-- How two declarations agree, if they declare the same overload. -/
def agreement? (earlier later : Method) : Option Agreement :=
  earlier.signature.agreement? later.signature

/-- Record an exception, unless it is listed already. -/
def addException (method : Method) (exception : RaisedException) : Method :=
  if exception ∈ method.exceptions then method
  else { method with exceptions := method.exceptions ++ [exception] }

/-- Take over what a later declaration says, given how it agrees with this one. -/
def absorb (earlier later : Method) (agreement : Agreement) : Method :=
  let adoptTypes : Bool := agreement.canonicalSide = .later
  let merged : Method :=
    { earlier with
      description := if later.description = "" then earlier.description else later.description
      returnType := if adoptTypes then later.returnType else earlier.returnType
      parameters := absorbParameters adoptTypes earlier.parameters later.parameters
      isStatic := earlier.isStatic || later.isStatic }
  later.exceptions.foldl addException merged

/-- Substitute aliases in the types of a method. -/
def normalize (expanded : ExpandedTable) (scope : Scope) (method : Method) : Method :=
  { method with
    returnType := expanded.normalized scope method.returnType
    parameters := method.parameters.map fun parameter =>
      { parameter with type := expanded.normalized scope parameter.type } }

@[simp]
theorem name_addException (method : Method) (exception : RaisedException) :
    (method.addException exception).name = method.name := by
  unfold addException
  split <;> rfl

theorem name_foldl_addException (exceptions : List RaisedException) (method : Method) :
    (exceptions.foldl addException method).name = method.name := by
  induction exceptions generalizing method with
  | nil => rfl
  | cons exception later ih => rw [List.foldl_cons, ih, name_addException]

@[simp]
theorem name_absorb (earlier later : Method) (agreement : Agreement) :
    (earlier.absorb later agreement).name = earlier.name :=
  name_foldl_addException later.exceptions _

@[simp]
theorem name_normalize (expanded : ExpandedTable) (scope : Scope) (method : Method) :
    (method.normalize expanded scope).name = method.name := rfl

end Method

end ApiReference
