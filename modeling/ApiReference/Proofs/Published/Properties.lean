import ApiReference.Proofs.Published.Accessors

/-!
# Methods and properties of a published class

The published methods of a class are those with a return type that are accessors of no property
(`publish_showsMembers`).  What the others say goes to the properties: the last description of an
accessor with `get` or `is`, or else the property's own, or else the first of an accessor with `set`
(`documentedBy`).  Each method that a property hears keeps this rule (`documentedBy_hear`), so it
holds after all of them (`publish_documents`), and how the two sorts of accessors stand among each
other does not matter.
-/

set_option autoImplicit false

namespace ApiReference

/-! ## What accessors say -/

namespace PublishedProperty

variable {method : PublishedMethod} {property : PublishedProperty} {access : Access}
  {kinds : List Access} {later : List PublishedMethod}

/-- The accessors of a property that are of certain kinds. -/
def accessors (kinds : List Access) (property : PublishedProperty)
    (methods : List PublishedMethod) : List PublishedMethod :=
  methods.filter fun method => ∃ access ∈ kinds, method.Accesses access property

/-- The descriptions that are not empty, of the accessors of a property that are of certain
kinds. -/
def saidBy (kinds : List Access) (property : PublishedProperty) (methods : List PublishedMethod) :
    List String :=
  ((accessors kinds property methods).map PublishedMethod.description).filter (· ≠ "")

/-- The description of a property among methods: the last one of an accessor with `get` or `is`, or
else its own, or else the first one of an accessor with `set`; empty if there is none. -/
def documentedBy (methods : List PublishedMethod) (property : PublishedProperty) : String :=
  (saidBy [.get, .is] property methods).getLast?.getD <|
    if property.description ≠ "" then property.description
    else (saidBy [.set] property methods).head?.getD ""

theorem describedBy_empty (access : Access) (property : PublishedProperty) :
    property.describedBy access "" = property := by
  cases access with
  | get => rfl
  | is => rfl
  | set =>
    rw [describedBy]
    split
    · rename_i undescribed
      rw [← undescribed]
    · rfl

theorem saidBy_cons_of_not (noAccess : ¬ method.IsAccessorOf property) :
    saidBy kinds property (method :: later) = saidBy kinds property later := by
  have unheard : ¬ ∃ access ∈ kinds, method.Accesses access property :=
    fun ⟨access, _, accesses⟩ => noAccess ⟨access, accesses⟩
  rw [saidBy, accessors, List.filter_cons_of_neg (by simpa using unheard)]
  rfl

theorem saidBy_cons_of_accesses (accesses : method.Accesses access property) :
    saidBy kinds property (method :: later) =
      if access ∈ kinds ∧ method.description ≠ "" then
        method.description :: saidBy kinds property later
      else saidBy kinds property later := by
  have ofKind : (∃ other ∈ kinds, method.Accesses other property) ↔ access ∈ kinds :=
    ⟨fun ⟨_, member, also⟩ => (accesses.unique also).1 ▸ member,
      fun member => ⟨access, member, accesses⟩⟩
  simp only [saidBy, accessors, List.filter_cons, ofKind]
  by_cases member : access ∈ kinds <;> by_cases empty : method.description = "" <;>
    simp [member, empty]

theorem saidBy_hear (kinds : List Access) (property : PublishedProperty)
    (method : PublishedMethod) (methods : List PublishedMethod) :
    saidBy kinds (property.hear method) methods = saidBy kinds property methods := by
  simp only [saidBy, accessors, ← PublishedMethod.access?_eq_some_iff, access?_hear]

/-- A property that has heard a method is described by the later ones as it is by all of them. -/
theorem documentedBy_hear (property : PublishedProperty) (method : PublishedMethod)
    (later : List PublishedMethod) :
    (property.hear method).documentedBy later = property.documentedBy (method :: later) := by
  rw [documentedBy, documentedBy, saidBy_hear, saidBy_hear]
  cases read : method.access? property with
  | none =>
    have noAccess : ¬ method.IsAccessorOf property := by
      rw [PublishedMethod.isAccessorOf_iff, read]
      exact Bool.false_ne_true
    rw [hear_of_not noAccess, saidBy_cons_of_not noAccess, saidBy_cons_of_not noAccess]
  | some access =>
    have accesses := PublishedMethod.access?_eq_some_iff.mp read
    rw [saidBy_cons_of_accesses accesses, saidBy_cons_of_accesses accesses,
      hear_of_accesses accesses]
    by_cases silent : method.description = ""
    · simp [silent, describedBy_empty]
    · cases access with
      | get => simp [describedBy, silent, List.getLast?_cons]
      | is => simp [describedBy, silent, List.getLast?_cons]
      | set => by_cases described : property.description = "" <;>
          simp [describedBy, silent, described]

theorem documentedBy_nil (property : PublishedProperty) :
    property.documentedBy [] = property.description := by
  have nothing (kinds : List Access) : saidBy kinds property [] = [] := rfl
  rw [documentedBy, nothing, nothing]
  by_cases described : property.description = "" <;> simp [described]

/-- What all methods make of a property is its description among them. -/
theorem foldl_hear (property : PublishedProperty) (methods : List PublishedMethod) :
    methods.foldl hear property =
      { property with description := property.documentedBy methods } := by
  induction methods generalizing property with
  | nil => rw [documentedBy_nil, List.foldl_nil]
  | cons method later ih =>
    have rest := congrArg (fun other : PublishedProperty =>
      { other with description := property.documentedBy (method :: later) })
      (withoutDescription_hear property method)
    rw [List.foldl_cons, ih, documentedBy_hear]
    exact rest

/-- A property that says something of itself is described, whatever accessors say. -/
theorem documentedBy_ne_empty (described : property.description ≠ "")
    (methods : List PublishedMethod) : property.documentedBy methods ≠ "" := by
  rw [documentedBy, if_pos described]
  cases last : (saidBy [.get, .is] property methods).getLast? with
  | none => exact described
  | some description =>
    have said : description ∈ saidBy [.get, .is] property methods := List.mem_of_getLast? last
    simpa using (List.mem_filter.mp said).2

end PublishedProperty

/-! ## Pages -/

/-- A published property shows a property of a class: its name, type and flags, and a description if
it has one. -/
structure Property.IsShownBy (property : Property) (published : PublishedProperty) : Prop where
  name : published.name = property.name
  type : published.type = displayText property.type
  readOnly : published.readOnly = property.readOnly
  isStatic : published.isStatic = property.isStatic
  described : cleanDescription property.description ≠ "" → published.description ≠ ""

namespace ClassPage

/-- The methods with a return type in their published form. -/
def rendered (page : ClassPage) : List PublishedMethod :=
  (page.methods.filter (!·.returnType.isEmpty)).map Method.publish

/-- The properties are described as the methods say, and the methods that are left are accessors of
none of them. -/
theorem foldAccessors_publish (page : ClassPage)
    (distinct : (page.properties.map Property.name).Nodup) :
    foldAccessors (page.properties.map Property.publish) page.rendered =
      (page.properties.map fun property =>
          { property.publish with description := property.publish.documentedBy page.rendered },
        page.rendered.filter fun method =>
          ¬ ∃ property ∈ page.properties, method.IsAccessorOf property.publish) := by
  have names : ((page.properties.map Property.publish).map PublishedProperty.name).Nodup := by
    rw [List.map_map]
    exact distinct
  rw [foldAccessors_eq names, List.map_map]
  simp only [PublishedMethod.IsAccessorAmong, List.mem_map, exists_exists_and_eq_and,
    Function.comp_def, PublishedProperty.foldl_hear]

theorem properties_publish (page : ClassPage)
    (distinct : (page.properties.map Property.name).Nodup) :
    page.publish.properties = page.properties.map fun property =>
      { property.publish with description := property.publish.documentedBy page.rendered } :=
  congrArg Prod.fst (foldAccessors_publish page distinct)

/-- A published class shows the methods with a return type in their order, except for the accessors
of its properties, and all properties in their order. -/
theorem publish_showsMembers (page : ClassPage)
    (distinct : (page.properties.map Property.name).Nodup) :
    (page.publish.methods = page.rendered.filter fun method =>
      ¬ ∃ property ∈ page.properties, method.IsAccessorOf property.publish) ∧
    List.Forall₂ Property.IsShownBy page.properties page.publish.properties := by
  refine ⟨congrArg Prod.snd (foldAccessors_publish page distinct), ?_⟩
  rw [properties_publish page distinct, List.forall₂_map_right_iff]
  refine List.forall₂_same.mpr fun property _ => ⟨rfl, rfl, rfl, rfl, fun described => ?_⟩
  exact PublishedProperty.documentedBy_ne_empty described page.rendered

/-- `isColor` does not return the type of the property, and the constructor has no return type.
`Color` has its description from an accessor that is not shown, and all of them are cleaned. -/
theorem publish_showsMembers_light :
    let method (name description returnType : String) (parameters : List Parameter) : Method :=
      ⟨name, description, parameters, tokenize returnType, false, []⟩
    let page : ClassPage :=
      { ClassPage.ofName "Light" with
        methods := [method "Light" "" "" [], method "isVisible" "" "bool" [],
          method "isColor" "White or  not." "int" [], method "SETColor" "Its  color." "void" [],
          method "Toggle" "Turns  it   on." "void"
            [⟨"fast", "At  once.", tokenize "const bool &"⟩, ⟨"", "", tokenize "Real"⟩]]
        properties := [⟨"Visible", "Shown  or not.", tokenize "bool", false, false⟩,
          ⟨"Color", "", tokenize "Zero::Real4", false, false⟩] }
    (page.properties.map Property.name).Nodup ∧
      page.publish.methods =
        [⟨"isColor", "White or not.", "int", "()", [], false, []⟩,
          ⟨"Toggle", "Turns it on.", "void", "(const bool& fast, Real)",
            [⟨"fast", "At once.", "const bool&"⟩, ⟨"", "", "Real"⟩], false, []⟩] ∧
      page.publish.properties =
        [⟨"Visible", "Shown or not.", "bool", false, false⟩,
          ⟨"Color", "Its color.", "Real4", false, false⟩] ∧
      List.Forall₂ Property.IsShownBy page.properties page.publish.properties := by
  intro method page
  have distinct : (page.properties.map Property.name).Nodup := by decide
  obtain ⟨methods, properties⟩ := publish_showsMembers page distinct
  refine ⟨distinct, ?_, by decide +kernel, properties⟩
  rw [methods]
  decide +kernel

/-- The published properties are described as the accessors among the methods say.  Where those with
`set` stand among those with `get` and `is` does not matter. -/
theorem publish_documents (page : ClassPage)
    (distinct : (page.properties.map Property.name).Nodup) :
    (page.publish.properties = page.properties.map fun property =>
      { property.publish with description := property.publish.documentedBy page.rendered }) ∧
    ∀ methods : List Method,
      (∀ property ∈ page.properties, ∀ kinds ∈ [[Access.get, .is], [.set]],
        PublishedProperty.accessors kinds property.publish { page with methods }.rendered =
          PublishedProperty.accessors kinds property.publish page.rendered) →
      { page with methods }.publish.properties = page.publish.properties := by
  refine ⟨properties_publish page distinct, fun methods sameAccessors => ?_⟩
  have reordered := properties_publish { page with methods } distinct
  rw [reordered, properties_publish page distinct]
  refine List.map_congr_left fun property member => ?_
  have gets := sameAccessors property member [.get, .is] (by simp)
  have sets := sameAccessors property member [.set] (by simp)
  rw [PublishedProperty.documentedBy, PublishedProperty.documentedBy]
  simp only [PublishedProperty.saidBy, gets, sets]

/-- The accessors of `Visible` with `set` stand before, between or behind the others, of which the
last one says nothing. -/
theorem publish_documents_light :
    let method (name description : String) : Method :=
      ⟨name, description, [], tokenize "bool", false, []⟩
    let page : ClassPage :=
      { ClassPage.ofName "Light" with
        methods := [method "SetVisible" "Shows or hides it.", method "GetVisible" "Shown or not.",
          method "setVisible" "Hides it.", method "IsVisible" "", method "SetOn" "Turns it on."]
        properties := [⟨"Visible", "Seen.", tokenize "bool", false, false⟩,
          ⟨"On", "", tokenize "bool", false, false⟩] }
    let moved : List Method :=
      [method "SetOn" "Turns it on.", method "GetVisible" "Shown or not.", method "IsVisible" "",
        method "SetVisible" "Shows or hides it.", method "setVisible" "Hides it."]
    (page.properties.map Property.name).Nodup ∧
      page.publish.properties.map PublishedProperty.description =
        ["Shown or not.", "Turns it on."] ∧
      { page with methods := moved }.publish.properties = page.publish.properties := by
  intro method page moved
  have distinct : (page.properties.map Property.name).Nodup := by decide
  obtain ⟨described, reordered⟩ := publish_documents page distinct
  refine ⟨distinct, ?_, reordered moved (by decide +kernel)⟩
  rw [described]
  decide +kernel

end ClassPage

end ApiReference
