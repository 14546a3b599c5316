import ApiReference.Proofs.Build.Accounts
import ApiReference.Proofs.Published.Alike

/-!
# The order of the classes of a document set

If the classes of a document set have distinct names, then it does not matter in what order they are
listed.  Up to the scan of the sources the libraries of two orders differ at most in the order of
their pages (`DocumentSet.sameLookup_described`).  The scan records the same in another order, which
publishing undoes, except that a method lists its exceptions as they were recorded
(`DocumentSet.build_perm`).
-/

set_option autoImplicit false

namespace ApiReference

/-- Where names are distinct, every class is the first of its name. -/
theorem firstOfEachName_of_nodup {classes : List ListedClass}
    (distinct : (classes.map ListedClass.name).Nodup) : firstOfEachName classes = classes := by
  induction classes with
  | nil => rfl
  | cons first later ih =>
    obtain ⟨fresh, distinctLater⟩ := List.nodup_cons.mp distinct
    rw [firstOfEachName, ih distinctLater, List.filter_eq_self.mpr]
    intro listed member
    refine decide_eq_true fun same => fresh ?_
    exact same ▸ List.mem_map_of_mem member

namespace DocumentSet

variable {documents : DocumentSet} {classes : List ListedClass}

theorem page?_library (documents : DocumentSet) (name : String) :
    documents.library.1.page? name =
      (documents.classes.map ListedClass.toPage).find? (·.name = name) :=
  (Library.ofEvents (.ofNames documents.events)).page?_addPages
    (documents.classes.map ListedClass.toPage) name

/-- Where names are distinct, no class is refused. -/
theorem findings_library_of_nodup (distinct : (documents.classes.map ListedClass.name).Nodup) :
    documents.library.2 = [] := by
  have counted := documents.length_library
  rw [distinct.dedup, List.length_map] at counted
  exact List.eq_nil_of_length_eq_zero (by omega)

theorem sameLookup_library (distinct : (documents.classes.map ListedClass.name).Nodup)
    (reordered : documents.classes.Perm classes) :
    documents.library.1.SameLookup ({ documents with classes } : DocumentSet).library.1 where
  page? := by
    funext name
    rw [page?_library, page?_library]
    refine find?_name_of_perm ?_ (reordered.map ListedClass.toPage)
    rwa [names_toPage]
  events := (Library.events_addPages _ _).trans (Library.events_addPages _ _).symm
  enumerations := rfl
  flags := rfl

/-- Up to the scan of the sources, the same is found in the libraries of two orders, and the
comments have the same outcomes. -/
theorem sameLookup_described (distinct : (documents.classes.map ListedClass.name).Nodup)
    (reordered : documents.classes.Perm classes) (expanded : ExpandedTable) :
    (documents.described expanded).SameLookup
        (({ documents with classes } : DocumentSet).described expanded) ∧
      ((documents.library.1.normalize expanded).addComments expanded documents.comments).2 =
        ((({ documents with classes } : DocumentSet).library.1.normalize expanded).addComments
          expanded documents.comments).2 := by
  have normalized := (sameLookup_library distinct reordered).mapPages
    (ClassPage.normalize expanded) (ClassPage.name_normalize expanded)
  obtain ⟨commented, findings⟩ := normalized.addComments expanded documents.comments
  exact ⟨commented.fillDescriptions, findings⟩

theorem completeLibrary_perm (distinct : (documents.classes.map ListedClass.name).Nodup)
    (reordered : documents.classes.Perm classes) (expanded : ExpandedTable) :
    (documents.completeLibrary expanded).1.publish.Alike
        (({ documents with classes } : DocumentSet).completeLibrary expanded).1.publish ∧
      (documents.completeLibrary expanded).2 =
        (({ documents with classes } : DocumentSet).completeLibrary expanded).2 := by
  have otherDistinct : (classes.map ListedClass.name).Nodup :=
    (reordered.map ListedClass.name).nodup distinct
  have scannedOrder : (firstOfEachName documents.classes).Perm (firstOfEachName classes) := by
    rwa [firstOfEachName_of_nodup distinct, firstOfEachName_of_nodup otherDistinct]
  obtain ⟨described, findings⟩ := sameLookup_described distinct reordered expanded
  constructor
  · exact (described.scan scannedOrder).publish
  · have duplicates : documents.library.2 = ({ documents with classes } : DocumentSet).library.2 := by
      rw [findings_library_of_nodup distinct, findings_library_of_nodup otherDistinct]
    exact congrArg₂ (· ++ ·) duplicates findings

/-- The classes of a document set may be listed in any order, if their names are distinct: what is
published differs at most in the order in which a method lists its exceptions, and the aliases, the
number of missing descriptions and all diagnostics are the same. -/
theorem build_perm (distinct : (documents.classes.map ListedClass.name).Nodup)
    (reordered : documents.classes.Perm classes) (input : BuildInput) :
    let output := documents.build input
    let other := ({ documents with classes } : DocumentSet).build input
    output.published.Alike other.published ∧ output.aliases = other.aliases ∧
      output.missing = other.missing ∧ output.log = other.log := by
  intro output other
  obtain ⟨published, findings⟩ := completeLibrary_perm distinct reordered output.aliases
  have undocumented : (if input.noReport then [] else output.published.undocumented input.ignore?) =
      if input.noReport then [] else other.published.undocumented input.ignore? :=
    congrArg (ite _ _) (PublishedLibrary.Alike.undocumented published input.ignore?)
  refine ⟨published, rfl, congrArg List.length undocumented, congrArg DiagnosticLog.ofFindings ?_⟩
  exact congrArg₂ (· ++ ·) (congrArg _ findings)
    (congrArg (List.map Finding.missingDescription) undocumented)

/-- The source of each of two classes notifies the user in the same function.  Its method has the
exceptions in the order in which the classes are listed, which is all that depends on it. -/
theorem build_perm_door_lamp :
    let door : ListedClass :=
      ⟨"Door", "", [], "", [⟨"Open", "Opens the door.", "Void", [], false⟩], [],
        ["Door::Open()", "DoNotifyException(\"Jammed\", \"It is stuck.\");"], []⟩
    let lamp : ListedClass :=
      ⟨"Lamp", "", [], "", [], [],
        ["Door::Open()", "DoNotifyException(\"Dark\", \"Nothing is seen.\");"], []⟩
    let documents : DocumentSet := ⟨[], [door, lamp], [], [], [], []⟩
    let other : DocumentSet := { documents with classes := [lamp, door] }
    let exceptions (documents : DocumentSet) : List RaisedException :=
      (((documents.described .empty).scanHeaders documents.classes).scanSources
        documents.classes).pages.flatMap fun page => page.methods.flatMap Method.exceptions
    (documents.classes.map ListedClass.name).Nodup ∧ documents.classes.Perm other.classes ∧
      exceptions documents = [⟨"Jammed", "It is stuck."⟩, ⟨"Dark", "Nothing is seen."⟩] ∧
      exceptions other = [⟨"Dark", "Nothing is seen."⟩, ⟨"Jammed", "It is stuck."⟩] ∧
      (documents.build default).published.Alike (other.build default).published ∧
      (documents.build default).log = (other.build default).log := by
  intro door lamp documents other exceptions
  have distinct : (documents.classes.map ListedClass.name).Nodup := by decide
  have reordered : documents.classes.Perm other.classes := List.Perm.swap lamp door []
  obtain ⟨published, -, -, log⟩ := build_perm distinct reordered default
  exact ⟨distinct, reordered, by decide +kernel, by decide +kernel, published, log⟩

end DocumentSet

end ApiReference
