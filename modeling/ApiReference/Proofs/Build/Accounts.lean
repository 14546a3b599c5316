import ApiReference.Proofs.Alias.Offers
import ApiReference.Proofs.Build.EventLists
import ApiReference.Proofs.Diagnostic.Counts
import ApiReference.Proofs.Library.Steps

/-!
# What a build accounts for

A build takes a library through steps (`DocumentSet.completeLibrary_eq_evolve`), none of which adds
a class or takes one away, so that what is published are the classes that the document set lists,
each name once.

Every phase has findings of one code alone, so the diagnostics of a code are counted where its phase
is (`DocumentSet.countOf_build`).  Whatever is refused, left cyclic, matched by nothing or not
described is found exactly once, and nothing else is (`DocumentSet.accounts_build`).
-/

set_option autoImplicit false

namespace ApiReference

/-! ## Comments -/

namespace Library

theorem addComments_eq_evolve (library : Library) (expanded : ExpandedTable)
    (comments : List ListedComment) :
    (library.addComments expanded comments).1 = library.evolve (comments.map fun comment =>
      .addComment comment.className comment.method.toMethod expanded) := by
  induction comments generalizing library with
  | nil => rfl
  | cons comment later ih => exact ih (library.addComment _ _ _).1

end Library

theorem CommentOutcome.code_of_finding? {outcome : CommentOutcome} {className method : String}
    {finding : Finding} (found : outcome.finding? className method = some finding) :
    finding.code = .unmatchedComment := by
  cases outcome with
  | merged => cases found
  | inherited => cases found
  | unmatched =>
    cases found
    rfl
  | unknownClass =>
    cases found
    rfl

namespace Library

/-- What becomes of comments that are added one after the other. -/
def commentOutcomes (library : Library) (expanded : ExpandedTable) :
    List ListedComment → List CommentOutcome
  | [] => []
  | comment :: later =>
    let (changed, outcome) :=
      library.addComment comment.className comment.method.toMethod expanded
    outcome :: changed.commentOutcomes expanded later

/-- There is one finding for every comment that belongs nowhere. -/
theorem length_addComments (library : Library) (expanded : ExpandedTable)
    (comments : List ListedComment) :
    (library.addComments expanded comments).2.length =
      (library.commentOutcomes expanded comments).countP
        fun outcome => outcome = .unmatched ∨ outcome = .unknownClass := by
  induction comments generalizing library with
  | nil => rfl
  | cons comment later ih =>
    rw [addComments, commentOutcomes, List.length_append, ih, List.countP_cons, Nat.add_comm]
    congr 1
    cases (library.addComment comment.className comment.method.toMethod expanded).2 <;> rfl

theorem code_of_mem_addComments (library : Library) (expanded : ExpandedTable)
    (comments : List ListedComment) :
    ∀ finding ∈ (library.addComments expanded comments).2, finding.code = .unmatchedComment := by
  induction comments generalizing library with
  | nil => exact List.forall_mem_nil _
  | cons comment later ih =>
    intro finding member
    rcases List.mem_append.mp member with here | later
    · exact CommentOutcome.code_of_finding? (Option.mem_toList.mp here)
    · exact ih _ finding later

end Library

/-! ## Aliases -/

namespace AliasTable

theorem mem_keys_insertAll (table : AliasTable) (offered : List Alias) (key : String) :
    key ∈ (table.insertAll offered).1.keys ↔ key ∈ table.keys ∨ key ∈ offered.map Alias.key := by
  rw [← find?_isSome_iff, ← find?_isSome_iff, find?_insertAll, Option.isSome_or,
    Bool.or_eq_true, find?_name_isSome_iff]

/-- Of the aliases that are offered, those are refused that repeat a key. -/
theorem length_insertAll_empty (offered : List Alias) :
    (empty.insertAll offered).2.length + (offered.map Alias.key).dedup.length = offered.length := by
  have taken : (empty.insertAll offered).1.keys.length = (offered.map Alias.key).dedup.length := by
    refine length_eq_length_dedup (empty.insertAll offered).1.keys_nodup fun key => ?_
    rw [mem_keys_insertAll, or_iff_right (notMem_keys_empty key)]
  have counted := empty.size_insertAll offered
  have nothing : empty.size = 0 := rfl
  rw [keys, List.length_map] at taken
  rw [← taken, (empty.findings_insertAll offered).2]
  unfold size at counted nothing
  omega

theorem code_of_mem_expand (table : AliasTable) :
    ∀ finding ∈ table.expand.2, finding.code = .aliasCycle := by
  intro finding member
  obtain ⟨entry, -, rfl⟩ := List.mem_map.mp member
  rfl

/-- There is one finding for every alias that is reported as cyclic. -/
theorem length_expand (table : AliasTable) :
    table.expand.2.length = table.expand.1.report.cycles.length :=
  (List.length_map _).trans (List.length_map _).symm

end AliasTable

/-! ## The phases of a build -/

namespace DocumentSet

/-- The aliases that are offered in a build, with those of the given table at the end. -/
def offeredAliases (documents : DocumentSet) (input : BuildInput) : List Alias :=
  documents.aliasEntries ++ (input.table?.map AliasRecords.aliases).getD []

theorem length_offeredAliases (documents : DocumentSet) (input : BuildInput) :
    (documents.offeredAliases input).length =
      documents.aliases.length + (input.table?.map (·.records.length)).getD 0 := by
  rw [offeredAliases, aliasEntries, List.length_append, List.length_map]
  congr 1
  cases input.table? with
  | none => rfl
  | some table => exact List.length_map _

/-- The steps of a build from when the classes are listed. -/
def librarySteps (documents : DocumentSet) (expanded : ExpandedTable) : List LibraryStep :=
  [.normalize expanded] ++
    (documents.comments.map fun comment =>
      .addComment comment.className comment.method.toMethod expanded) ++
    [.fillDescriptions] ++ documents.sourceSteps.map .source

theorem completeLibrary_eq_evolve (documents : DocumentSet) (expanded : ExpandedTable) :
    (documents.completeLibrary expanded).1 =
      documents.library.1.evolve (documents.librarySteps expanded) := by
  rw [completeLibrary_eq_after, described, Library.addComments_eq_evolve, Library.after_eq_evolve,
    librarySteps, Library.evolve_append, Library.evolve_append, Library.evolve_append]
  rfl

/-- No step of a build adds a class. -/
theorem added_librarySteps (documents : DocumentSet) (expanded : ExpandedTable) :
    (documents.librarySteps expanded).flatMap LibraryStep.added = [] := by
  rw [List.flatMap_eq_nil_iff]
  intro step member
  simp only [librarySteps, List.mem_append, List.mem_singleton, List.mem_map] at member
  rcases member with ((rfl | ⟨comment, -, rfl⟩) | rfl) | ⟨source, -, rfl⟩ <;> rfl

theorem names_toPage (classes : List ListedClass) :
    (classes.map ListedClass.toPage).map ClassPage.name = classes.map ListedClass.name := by
  rw [List.map_map]
  exact List.map_congr_left fun listed _ => congrArg EventUse.className listed.eventUse_toPage

theorem mem_names_library (documents : DocumentSet) (name : String) :
    name ∈ documents.library.1.pages.map ClassPage.name ↔
      name ∈ documents.classes.map ListedClass.name := by
  have filled := Library.mem_names_addPages (.ofEvents (.ofNames documents.events))
    (documents.classes.map ListedClass.toPage) name
  rw [names_toPage] at filled
  exact filled.trans (or_iff_right List.not_mem_nil)

/-- The classes of a build are those that are listed. -/
theorem mem_names_completeLibrary (documents : DocumentSet) (expanded : ExpandedTable)
    (name : String) :
    name ∈ (documents.completeLibrary expanded).1.pages.map ClassPage.name ↔
      name ∈ documents.classes.map ListedClass.name := by
  have found := congrArg Option.isSome (Library.heading?_evolve documents.library.1
    (documents.librarySteps expanded) name)
  rw [added_librarySteps, List.find?_nil, Option.or_none, Option.isSome_map, Option.isSome_map]
    at found
  rw [completeLibrary_eq_evolve, ← Library.page?_isSome_iff, found, Library.page?_isSome_iff,
    mem_names_library]

theorem code_of_mem_library (documents : DocumentSet) :
    ∀ finding ∈ documents.library.2, finding.code = .duplicateClass :=
  Library.code_of_mem_addPages _ _

/-- Of the classes that are listed, those are refused that repeat a name. -/
theorem length_library (documents : DocumentSet) :
    documents.library.2.length + (documents.classes.map ListedClass.name).dedup.length =
      documents.classes.length := by
  have taken := length_eq_length_dedup documents.library.1.names_nodup documents.mem_names_library
  have counted := (Library.ofEvents (.ofNames documents.events)).size_addPages
    (documents.classes.map ListedClass.toPage)
  rw [← taken, List.length_map]
  rw [List.length_map] at counted
  exact counted.trans (Nat.zero_add _)

/-- What a phase finds counts for the code of the phase alone. -/
theorem countOf_build (documents : DocumentSet) (input : BuildInput) (code : DiagnosticCode) :
    let offered := AliasTable.empty.insertAll (documents.offeredAliases input)
    let output := documents.build input
    let normalized := documents.library.1.normalize output.aliases
    output.log.countOf code =
      (if .duplicateAlias = code then offered.2.length else 0) +
      (if .aliasCycle = code then offered.1.expand.2.length else 0) +
      (if .duplicateClass = code then documents.library.2.length else 0) +
      (if .unmatchedComment = code then
        (normalized.addComments output.aliases documents.comments).2.length else 0) +
      (if .missingDescription = code then output.missing else 0) := by
  intro offered output normalized
  have findings : output.findings = (offered.2 ++ offered.1.expand.2) ++
      (documents.library.2 ++
        (normalized.addComments output.aliases documents.comments).2) ++
      (if input.noReport then [] else output.published.undocumented input.ignore?).map
        Finding.missingDescription := rfl
  have undescribed (items : List UndocumentedItem) :
      ∀ finding ∈ items.map Finding.missingDescription, finding.code = .missingDescription :=
    List.forall_mem_map.mpr fun _ _ => rfl
  rw [BuildOutput.log, DiagnosticLog.countOf_ofFindings, findings, List.countP_append,
    List.countP_append, List.countP_append, List.countP_append,
    DiagnosticLog.countP_code (AliasTable.empty.findings_insertAll _).1,
    DiagnosticLog.countP_code offered.1.code_of_mem_expand,
    DiagnosticLog.countP_code documents.code_of_mem_library,
    DiagnosticLog.countP_code (Library.code_of_mem_addComments _ _ _),
    DiagnosticLog.countP_code (undescribed _), List.length_map, ← Nat.add_assoc]
  rfl

end DocumentSet

/-! ## The result -/

/-- What the output of a build says of everything that was given to it. -/
structure BuildOutput.Accounts (documents : DocumentSet) (input : BuildInput)
    (output : BuildOutput) : Prop where
  ordered : (output.published.classes.map PublishedClass.name).Pairwise (· < ·)
  published_iff : ∀ name, name ∈ output.published.classes.map PublishedClass.name ↔
    name ∈ documents.classes.map ListedClass.name
  duplicateClasses : output.log.countOf .duplicateClass +
    (documents.classes.map ListedClass.name).dedup.length = documents.classes.length
  duplicateAliases : output.log.countOf .duplicateAlias +
    ((documents.offeredAliases input).map Alias.key).dedup.length =
      documents.aliases.length + (input.table?.map (·.records.length)).getD 0
  aliasCycles : output.log.countOf .aliasCycle = output.aliases.report.cycles.length
  missing : output.log.countOf .missingDescription = output.missing
  undescribed : output.missing =
    if input.noReport then 0 else (output.published.undocumented input.ignore?).length
  unmatchedComments : output.log.countOf .unmatchedComment =
    ((documents.library.1.normalize output.aliases).commentOutcomes output.aliases
      documents.comments).countP fun outcome => outcome = .unmatched ∨ outcome = .unknownClass
  codes : ∀ diagnostic ∈ output.log.entries, diagnostic.code ∈
    [.duplicateClass, .duplicateAlias, .aliasCycle, .missingDescription, .unmatchedComment]
  noErrors : output.log.errorCount = 0
  warnings : output.log.warningCount = output.log.size
  summary : output.log.warningCount = (output.log.summary.map Prod.snd).sum

/-- A build publishes every listed class once, in order, and there is one warning for everything
that it refuses, leaves cyclic, matches with nothing or finds without a description, and no other
diagnostic. -/
theorem DocumentSet.accounts_build (documents : DocumentSet) (input : BuildInput) :
    (documents.build input).Accounts documents input := by
  have counted := documents.countOf_build input
  have names : ((documents.build input).published.classes.map PublishedClass.name).Perm
      ((documents.completeLibrary (documents.build input).aliases).1.pages.map ClassPage.name) := by
    refine ((sortByName_perm PublishedClass.name _).map _).trans ?_
    rw [List.map_map]
    exact List.Perm.refl _
  constructor
  case ordered =>
    refine pairwise_sortByName PublishedClass.name _ ?_
    rw [List.map_map]
    exact (documents.completeLibrary _).1.names_nodup
  case published_iff =>
    intro name
    rw [names.mem_iff, mem_names_completeLibrary]
  case duplicateClasses =>
    rw [counted]
    exact (congrArg (· + _) (by simp)).trans documents.length_library
  case duplicateAliases =>
    rw [counted, ← length_offeredAliases]
    exact (congrArg (· + _) (by simp)).trans (AliasTable.length_insertAll_empty _)
  case aliasCycles =>
    refine (counted .aliasCycle).trans (Eq.trans ?_ (AliasTable.length_expand
      (AliasTable.empty.insertAll (documents.offeredAliases input)).1))
    simp
  case missing =>
    refine (counted .missingDescription).trans ?_
    simp
  case undescribed => exact apply_ite List.length _ _ _
  case unmatchedComments =>
    refine (counted .unmatchedComment).trans (Eq.trans ?_ (Library.length_addComments _ _ _))
    simp
  case codes =>
    intro diagnostic member
    have occurs : 0 < (documents.build input).log.countOf diagnostic.code :=
      List.countP_pos_iff.mpr ⟨diagnostic, member, decide_eq_true rfl⟩
    rw [counted] at occurs
    generalize diagnostic.code = code at occurs ⊢
    -- no phase counts for a code of a file that could not be read or written
    cases code with
    | unreadableDocumentSet | unreadableAliasTable | unwritableOutput => simp at occurs
    | duplicateAlias | aliasCycle | duplicateClass | missingDescription | unmatchedComment => simp
  case noErrors => exact DiagnosticLog.errorCount_ofFindings _
  case warnings => exact DiagnosticLog.warningCount_ofFindings _
  case summary =>
    rw [DiagnosticLog.sum_summary]
    exact DiagnosticLog.warningCount_ofFindings _

end ApiReference
