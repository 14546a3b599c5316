import ApiReference.Proofs.Source.Order
import ApiReference.Published.Publish
import ApiReference.Report.Missing

/-!
# Publishing what is alike

Publishing orders classes, members and events by their names and never looks at exceptions.  So of
libraries in which the same was recorded in some order, the published forms are the same
(`Library.Alike.publish`), except for the order in which methods list their exceptions, which
`PublishedLibrary.Alike` leaves open.  The report on missing descriptions does not see that order
either (`PublishedLibrary.Alike.undocumented`).
-/

set_option autoImplicit false

namespace ApiReference

/-! ## Published forms that are alike -/

namespace PublishedMethod

/-- The published method without its exceptions. -/
def withoutExceptions (method : PublishedMethod) : PublishedMethod :=
  { method with exceptions := [] }

/-- The same published method, with the same exceptions in some order. -/
structure Alike (left right : PublishedMethod) : Prop where
  rest : left.withoutExceptions = right.withoutExceptions
  exceptions : left.exceptions.Perm right.exceptions

theorem map_withoutExceptions_eq {left right : List PublishedMethod}
    (alike : List.Forall₂ Alike left right) :
    left.map withoutExceptions = right.map withoutExceptions := by
  have same := List.rel_map (fun _ _ alike => Alike.rest alike) alike
  rwa [List.forall₂_eq_eq_eq] at same

end PublishedMethod

namespace PublishedClass

/-- The published class without its methods. -/
def withoutMethods (page : PublishedClass) : PublishedClass :=
  { page with methods := [] }

/-- The same published class, up to the order of the exceptions of a method. -/
structure Alike (left right : PublishedClass) : Prop where
  rest : left.withoutMethods = right.withoutMethods
  methods : List.Forall₂ PublishedMethod.Alike left.methods right.methods

end PublishedClass

/-- The same published library, up to the order of the exceptions of a method. -/
structure PublishedLibrary.Alike (left right : PublishedLibrary) : Prop where
  classes : List.Forall₂ PublishedClass.Alike left.classes right.classes
  events : left.events = right.events
  enumerations : left.enumerations = right.enumerations
  flags : left.flags = right.flags

/-! ## Missing descriptions -/

namespace PublishedClass

/-- The exceptions of methods have no part in what is not described. -/
theorem undocumented_eq (ignore? : Option IgnoreList) (page : PublishedClass) :
    page.undocumented ignore? =
      { page.withoutMethods with
        methods := page.methods.map PublishedMethod.withoutExceptions }.undocumented ignore? := by
  unfold undocumented
  rw [List.filter_map, List.map_map]
  rfl

theorem Alike.undocumented {left right : PublishedClass} (alike : left.Alike right)
    (ignore? : Option IgnoreList) : left.undocumented ignore? = right.undocumented ignore? := by
  rw [undocumented_eq, alike.rest, PublishedMethod.map_withoutExceptions_eq alike.methods,
    ← undocumented_eq]

end PublishedClass

theorem PublishedLibrary.Alike.undocumented {left right : PublishedLibrary}
    (alike : left.Alike right) (ignore? : Option IgnoreList) :
    left.undocumented ignore? = right.undocumented ignore? := by
  have each : ∀ ⦃first second : PublishedClass⦄, first.Alike second →
      first.undocumented ignore? = second.undocumented ignore? :=
    fun _ _ same => same.undocumented ignore?
  have items := List.rel_map each alike.classes
  rw [List.forall₂_eq_eq_eq] at items
  exact congrArg List.flatten items

/-! ## Accessors -/

/-- The exceptions of methods have no part in the folding of accessors. -/
theorem foldAccessors_alike {left right : List PublishedMethod}
    (alike : List.Forall₂ PublishedMethod.Alike left right) (properties : List PublishedProperty) :
    (foldAccessors properties left).1 = (foldAccessors properties right).1 ∧
      List.Forall₂ PublishedMethod.Alike (foldAccessors properties left).2
        (foldAccessors properties right).2 := by
  induction alike generalizing properties with
  | nil => exact ⟨rfl, .nil⟩
  | @cons first second _ _ same _ ih =>
    have fold (method : PublishedMethod) : foldAccessor? method properties =
        foldAccessor? method.withoutExceptions properties := rfl
    rw [foldAccessors, foldAccessors, fold first, fold second, same.rest]
    cases foldAccessor? second.withoutExceptions properties with
    | some described => exact ih described
    | none =>
      obtain ⟨described, kept⟩ := ih properties
      exact ⟨described, .cons same kept⟩

/-! ## Pages -/

theorem EventUse.Alike.prune {left right : EventUse} (alike : left.Alike right) :
    left.prune.Alike right.prune where
  className := alike.className
  sent event := by rw [left.alike_prune.sent, right.alike_prune.sent, alike.sent]
  listened event := by rw [left.alike_prune.listened, right.alike_prune.listened, alike.listened]

theorem Method.Alike.publish {left right : Method} (alike : left.Alike right) :
    left.publish.Alike right.publish where
  rest := by
    have same := congrArg Method.publish alike.rest
    exact same
  exceptions := alike.exceptions

namespace ClassPage

variable {left right : ClassPage}

theorem Alike.publish (alike : left.Alike right) : left.publish.Alike right.publish := by
  have methods : List.Forall₂ PublishedMethod.Alike
      ((left.methods.filter (!·.returnType.isEmpty)).map Method.publish)
      ((right.methods.filter (!·.returnType.isEmpty)).map Method.publish) := by
    refine List.rel_map (fun _ _ same => Method.Alike.publish same) ?_
    refine List.rel_filter (fun first second same => ?_) alike.methods
    have sameType := congrArg (fun method : Method => (!method.returnType.isEmpty) = true) same.rest
    exact iff_of_eq sameType
  obtain ⟨described, listed⟩ :=
    foldAccessors_alike methods (right.properties.map Property.publish)
  have outline := alike.outline
  rw [ClassPage.outline, ClassPage.outline, ClassPage.mk.injEq] at outline
  obtain ⟨name, base, -, description, -, properties, -, -⟩ := outline
  constructor
  case rest =>
    rw [PublishedClass.withoutMethods, PublishedClass.withoutMethods, PublishedClass.mk.injEq]
    refine ⟨name, base, congrArg cleanDescription description, rfl, ?_,
      sortedNames_congr alike.eventUse.sent, sortedNames_congr alike.eventUse.listened⟩
    rw [ClassPage.publish, ClassPage.publish, properties]
    exact described
  case methods =>
    rw [ClassPage.publish, ClassPage.publish, properties]
    exact listed

theorem Alike.pruneEvents (alike : left.Alike right) :
    left.pruneEvents.Alike right.pruneEvents where
  outline := alike.outline
  methods := alike.methods
  eventUse := EventUse.Alike.prune alike.eventUse

theorem Alike.sort (alike : left.Alike right) : left.sort.Alike right.sort where
  outline := by
    have same := congrArg (fun page : ClassPage =>
      { page with properties := sortByName Property.name page.properties }) alike.outline
    exact same
  methods := forall₂_sortByName alike.methods fun _ _ same => same.name
  eventUse := alike.eventUse

end ClassPage

/-! ## Libraries -/

theorem Event.Alike.prune {left right : Event} (alike : left.Alike right) :
    left.prune = right.prune := by
  rw [Event.prune, Event.prune, alike.name, sortedNames_congr alike.senders,
    sortedNames_congr alike.listeners]

theorem EventTable.find?_prune (table : EventTable) (name : String) :
    table.prune.find? name = (table.find? name).map Event.prune := by
  have exact : (table.store.mapItems Event.prune).Exact :=
    (table.made.mapItems Event.name_prune).exact
  exact (exact.find?_sort (nameLe Event.name) name).trans
    (table.store.find?_mapItems Event.prune name)

namespace Library

variable {left right : Library}

/-- The class that is published under a name. -/
theorem find?_map_publish (library : Library) (name : String) :
    (library.pruneEvents.sort.pages.map ClassPage.publish).find? (·.name = name) =
      (library.page? name).map fun page => page.pruneEvents.sort.publish := by
  have pruned : library.pruneEvents.page? name =
      (library.page? name).map ClassPage.pruneEvents :=
    library.page?_mapPages ClassPage.pruneEvents ClassPage.name_pruneEvents name
  have found : library.pruneEvents.sort.page? name =
      (library.page? name).map fun page => page.pruneEvents.sort := by
    rw [page?_sort, pruned, Option.map_map]
    rfl
  rw [page?_eq] at found
  rw [List.find?_map]
  refine (congrArg (Option.map ClassPage.publish) found).trans ?_
  rw [Option.map_map]
  rfl

theorem distinct_map_publish (library : Library) :
    ((library.pages.map ClassPage.publish).map PublishedClass.name).Nodup := by
  rw [List.map_map]
  exact library.names_nodup

/-- Of libraries in which the same was recorded, the published forms are alike. -/
theorem Alike.publish (alike : left.Alike right) :
    left.pruneEvents.sort.publish.Alike right.pruneEvents.sort.publish where
  classes := by
    refine forall₂_sortByName_of_find? (distinct_map_publish _) (distinct_map_publish _)
      fun name => ?_
    rw [find?_map_publish, find?_map_publish]
    exact rel_map (alike.pages name) fun _ _ same => same.pruneEvents.sort.publish
  events := by
    have found (name : String) : Option.Rel Eq (left.events.prune.find? name)
        (right.events.prune.find? name) := by
      rw [EventTable.find?_prune, EventTable.find?_prune]
      exact rel_map (alike.events name) fun _ _ same => same.prune
    simp only [EventTable.find?_eq] at found
    have sorted := forall₂_sortByName_of_find? left.events.prune.names_nodup
      right.events.prune.names_nodup found
    rw [List.forall₂_eq_eq_eq] at sorted
    exact sorted
  enumerations := by
    exact congrArg (fun enumerations => sortByName PublishedEnumeration.name
      (enumerations.map Enumeration.publish)) alike.enumerations
  flags := by
    exact congrArg (fun flags => sortByName PublishedEnumeration.name
      (flags.map Enumeration.publish)) alike.flags

end Library

end ApiReference
