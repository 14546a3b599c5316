import ApiReference.Proofs.Source.Records

/-!
# Where in the source a scan is

Where a scan is depends on the lines that are read and on which classes and methods there are, and
on nothing that the scan records (`place_scanSource`).  The function that is open behind some lines
is a method of the class in which it was opened (`hasMethod_of_currentFunction?`); another class may
be open by then.

A line that opens with `#`, that holds a semicolon, or in which no `::` stands between two tokens
keeps the place (`placeBehind_of_keepsPlace`).  If it does not name the function that notifies of
exceptions, it may stand between any other lines and no exception is recorded otherwise.  No other
line may, wherever else it holds a `#` (`exceptionLists_insert_iff`).
-/

set_option autoImplicit false

namespace ApiReference

namespace Library

variable {library : Library} {place : SourcePlace}

/-! ## The place of a scan -/

/-- Behind any lines the scan is where the lines lead, by the library from which it starts. -/
theorem place_scanSource {home : String} (known : (library.page? home).isSome = true)
    (lines : List String) :
    (library.scanSource home lines).place =
      (lines.map tokenize).foldl library.placeBehind ⟨home, none⟩ := by
  obtain ⟨page, found⟩ := Option.isSome_iff_exists.mp known
  rw [scanSource_eq, found]
  exact place_foldl_readLine home _ _

theorem scanSource_of_unknown {home : String} (unknown : library.page? home = none)
    (lines : List String) : library.scanSource home lines = ⟨library, ⟨home, none⟩, 0, 0⟩ := by
  rw [scanSource_eq, unknown]

theorem sameOutline_scanSource (library : Library) (home : String) (lines : List String) :
    (library.scanSource home lines).library.SameOutline library := by
  rw [library_scanSource]
  exact sameOutline_foldl_apply _ library

theorem SameOutline.hasMethod {left right : Library} (same : left.SameOutline right) :
    left.hasMethod = right.hasMethod := by
  funext className method
  rw [hasMethod_eq, hasMethod_eq, same.methodNames]

/-! ## The function that is open -/

/-- The function that is open, if one is, is a method of the class in which it was opened. -/
def HasOpenFunction (library : Library) (place : SourcePlace) : Prop :=
  ∀ owner function, place.currentFunction? = some (owner, function) →
    library.hasMethod owner function = true

/-- Reading `left :: right` opens a method of the name on the right, or no function. -/
theorem currentFunction?_openFunction (library : Library) (place : SourcePlace)
    (left right : String) :
    (library.openFunction left right place).currentFunction? = place.currentFunction? ∨
      ∃ owner, library.hasMethod owner right = true ∧
        (library.openFunction left right place).currentFunction? = some (owner, right) := by
  unfold openFunction
  dsimp only
  split
  · rename_i isMethod
    exact Or.inr ⟨_, isMethod, rfl⟩
  · exact Or.inl rfl

namespace HasOpenFunction

theorem openFunction (opened : library.HasOpenFunction place) (left right : String) :
    library.HasOpenFunction (library.openFunction left right place) := by
  intro owner function current
  rcases library.currentFunction?_openFunction place left right with
    same | ⟨other, isMethod, opens⟩
  · exact opened owner function (same ▸ current)
  · obtain ⟨rfl, rfl⟩ := Prod.mk.inj (Option.some.inj (opens.symm.trans current))
    exact isMethod

theorem openFunctions (opened : library.HasOpenFunction place) (line : List Token) :
    library.HasOpenFunction (library.openFunctions place line) := by
  fun_induction Library.openFunctions library place line with
  | case1 place left middle right following ih =>
    refine ih ?_
    split
    · exact opened.openFunction left.text right.text
    · exact opened
  | case2 => exact opened

theorem placeBehind (opened : library.HasOpenFunction place) (line : List Token) :
    library.HasOpenFunction (library.placeBehind place line) := by
  unfold Library.placeBehind
  split
  · exact opened
  · split
    · exact opened
    · exact opened.openFunctions line

end HasOpenFunction

/-- Behind any lines, the function that is open is a method of the class in which it was opened. -/
theorem hasMethod_of_currentFunction? {home owner function : String} {lines : List String}
    (current : (library.scanSource home lines).place.currentFunction? = some (owner, function)) :
    library.hasMethod owner function = true := by
  have nothingOpen : library.HasOpenFunction ⟨home, none⟩ := by
    intro owner function current
    cases current
  suffices opened : library.HasOpenFunction (library.scanSource home lines).place from
    opened owner function current
  cases known : library.page? home with
  | none =>
    rw [scanSource_of_unknown known]
    exact nothingOpen
  | some page =>
    rw [place_scanSource (by rw [known]; rfl)]
    exact List.foldlRecOn (motive := library.HasOpenFunction) _ _ nothingOpen
      fun _ opened line _ => opened.placeBehind line

end Library

/-! ## Lines that keep the place -/

/-- Some `::` of the line stands between two tokens. -/
def namesFunction : List Token → Bool
  | _ :: middle :: right :: following =>
    middle.kind = .scopeResolution || namesFunction (middle :: right :: following)
  | _ => false

/-- The line is not read for functions, or names none. -/
def KeepsPlace (line : List Token) : Prop :=
  line.head?.any (·.kind = .pound) = true ∨ Token.hasKind .semicolon line = true ∨
    namesFunction line = false

instance (line : List Token) : Decidable (KeepsPlace line) :=
  inferInstanceAs (Decidable (_ ∨ _ ∨ _))

/-- A method with nothing but a name. -/
def Method.ofName (name : String) : Method :=
  ⟨name, "", [], [], false, []⟩

namespace Library

variable {library : Library} {place : SourcePlace} {line : List Token} {name : String}

theorem openFunctions_of_not_namesFunction (nothing : namesFunction line = false) :
    library.openFunctions place line = place := by
  fun_induction openFunctions library place line with
  | case1 place left middle right following ih =>
    obtain ⟨notScope, nothingLater⟩ := Bool.or_eq_false_iff.mp nothing
    rw [ih nothingLater, if_neg (of_decide_eq_false notScope)]
  | case2 => rfl

theorem placeBehind_of_keepsPlace (keeps : KeepsPlace line) :
    library.placeBehind place line = place := by
  unfold placeBehind
  rcases keeps with pound | semicolon | nothing
  · rw [if_pos pound]
  · rw [if_pos semicolon, ite_self]
  · rw [openFunctions_of_not_namesFunction nothing, ite_self, ite_self]

/-! ## The exceptions of a library -/

/-- The exceptions of every class, method by method. -/
def exceptionLists (library : Library) : List (String × List (String × List RaisedException)) :=
  library.pages.map fun page =>
    (page.name, page.methods.map fun method => (method.name, method.exceptions))

theorem exceptionLists_foldl_apply (records : List SourceRecord) (library : Library) :
    (records.foldl SourceRecord.apply library).exceptionLists =
      library.pages.map fun page =>
        (page.name,
          ((records.filterMap (SourceRecord.raisedBy? page.name)).foldl Method.raise
            page.methods).map fun method => (method.name, method.exceptions)) := by
  rw [exceptionLists, pages_foldl_apply, List.map_map]
  refine List.map_congr_left fun page _ => ?_
  rw [Function.comp_apply, foldl_onPage]

/-- The use of an event is no exception. -/
theorem raisedBy?_usedOn (library : Library) (home : String) (line : List Token)
    (className : String) :
    (library.usedOn home line).filterMap (SourceRecord.raisedBy? className) = [] := by
  unfold usedOn
  split <;> rfl

theorem raisedOn_of_noSemicolon (noSemicolon : Token.hasKind .semicolon line = false)
    (place : SourcePlace) : raisedOn place line = [] := by
  rw [raisedOn, noSemicolon]
  exact ite_self _

theorem raisedOn_of_not_notified (nothing : notifiedException? line = none) (place : SourcePlace) :
    raisedOn place line = [] := by
  unfold raisedOn
  rw [nothing]
  split
  · rfl
  · split
    · split
      · contradiction
      · rfl
    · rfl

/-- An exception that a line notifies of is recorded with the function that is open. -/
theorem raisedOn_of_notified {exception : RaisedException}
    (noPound : line.head?.any (·.kind = .pound) = false)
    (semicolon : Token.hasKind .semicolon line = true)
    (notified : notifiedException? line = some exception) (place : SourcePlace) :
    raisedOn place line =
      (place.currentFunction?.map fun opened =>
        SourceRecord.raises opened.1 opened.2 exception).toList := by
  unfold raisedOn
  rw [noPound, semicolon, notified]
  cases place.currentFunction? <;> rfl

theorem notifiedException?_of_notMem (quiet : Token.ofWord notifyFunction ∉ line) :
    notifiedException? line = none := by
  unfold notifiedException?
  rw [if_neg]
  rwa [List.contains_iff_mem]

/-! ## Lines that may stand anywhere -/

/-- The exceptions of a class that some lines have recorded, from the first line on. -/
theorem raised_recordsFrom_cons (library : Library) (home : String) (place : SourcePlace)
    (line : List Token) (later : List (List Token)) (className : String) :
    (library.recordsFrom home place (line :: later)).filterMap (SourceRecord.raisedBy? className) =
      (raisedOn place line).filterMap (SourceRecord.raisedBy? className) ++
        (library.recordsFrom home (library.placeBehind place line) later).filterMap
          (SourceRecord.raisedBy? className) := by
  rw [recordsFrom, List.filterMap_append, List.filterMap_append, raisedBy?_usedOn,
    List.nil_append]

/-- What is recorded of exceptions does not change by a line that neither moves the scan nor
notifies of an exception. -/
theorem raised_recordsFrom_insert (keeps : KeepsPlace line)
    (quiet : Token.ofWord notifyFunction ∉ line) (home : String) (place : SourcePlace)
    (earlier later : List (List Token)) (className : String) :
    (library.recordsFrom home place (earlier ++ line :: later)).filterMap
        (SourceRecord.raisedBy? className) =
      (library.recordsFrom home place (earlier ++ later)).filterMap
        (SourceRecord.raisedBy? className) := by
  rw [recordsFrom_append, recordsFrom_append, List.filterMap_append, List.filterMap_append,
    raised_recordsFrom_cons, placeBehind_of_keepsPlace keeps,
    raisedOn_of_not_notified (notifiedException?_of_notMem quiet), List.filterMap_nil,
    List.nil_append]

theorem exceptionLists_insert {line : String} (keeps : KeepsPlace (tokenize line))
    (quiet : Token.ofWord notifyFunction ∉ tokenize line) (library : Library) (home : String)
    (earlier later : List String) :
    (library.scanSource home (earlier ++ line :: later)).library.exceptionLists =
      (library.scanSource home (earlier ++ later)).library.exceptionLists := by
  simp only [library_scanSource, exceptionLists_foldl_apply, sourceRecords]
  cases library.page? home with
  | none => rfl
  | some page =>
    simp only [List.map_append, List.map_cons, raised_recordsFrom_insert keeps quiet]

theorem place_scanSource_insert {line : String} (keeps : KeepsPlace (tokenize line))
    (library : Library) (home : String) (earlier : List String) :
    (library.scanSource home (earlier ++ [line])).place =
      (library.scanSource home earlier).place := by
  cases known : library.page? home with
  | none => rw [scanSource_of_unknown known, scanSource_of_unknown known]
  | some page =>
    have isKnown : (library.page? home).isSome = true := by rw [known]; rfl
    rw [place_scanSource isKnown, place_scanSource isKnown, List.map_append, List.foldl_append,
      List.map_singleton, List.foldl_cons, List.foldl_nil, placeBehind_of_keepsPlace keeps]

/-- Where there is no other class than the one that is open, none is opened. -/
theorem currentClass_of_onlyClass (onlyClass : ∀ page ∈ library.pages, page.name = name)
    (left : String) :
    ((library.pageMeant? omittedBeginnings left).map ClassPage.name).getD name = name := by
  cases meant : library.pageMeant? omittedBeginnings left with
  | none => rfl
  | some page =>
    rw [pageMeant?_eq] at meant
    obtain ⟨className, -, found⟩ := List.exists_of_findSome?_eq_some meant
    exact onlyClass page (page?_eq_some_iff.mp found).1

theorem isSome_openFunctions (opened : place.currentFunction?.isSome = true) (line : List Token) :
    (library.openFunctions place line).currentFunction?.isSome = true := by
  fun_induction openFunctions library place line with
  | case1 place left middle right following ih =>
    refine ih ?_
    split
    · rcases library.currentFunction?_openFunction place left.text right.text with
        same | ⟨owner, -, opens⟩
      · rw [same]
        exact opened
      · rw [opens]
        rfl
    · exact opened
  | case2 => exact opened

/-- A line that names a function opens it, if a class has a method of its name. -/
theorem exists_opened_of_namesFunction (names : namesFunction line = true) :
    ∃ method, ∀ (library : Library) (place : SourcePlace),
      (∀ page ∈ library.pages, page.name = place.currentClass) →
        library.hasMethod place.currentClass method = true →
          (library.openFunctions place line).currentFunction?.isSome = true := by
  fun_induction namesFunction line with
  | case1 left middle right following ih =>
    by_cases isScope : middle.kind = .scopeResolution
    · refine ⟨right.text, fun library place onlyClass isMethod => ?_⟩
      rw [openFunctions, if_pos isScope]
      refine isSome_openFunctions ?_ _
      simp only [openFunction, currentClass_of_onlyClass onlyClass, isMethod, if_true,
        Option.isSome_some]
    · rw [decide_eq_false isScope, Bool.false_or] at names
      obtain ⟨method, opens⟩ := ih names
      refine ⟨method, fun library place onlyClass isMethod => ?_⟩
      rw [openFunctions, if_neg isScope]
      exact opens library place onlyClass isMethod
  | case2 => contradiction

/-- A library of one class with methods of some names. -/
def ofMethods (className : String) (methods : List String) : Library :=
  (ofEvents .empty).addPage
    { ClassPage.ofName className with methods := methods.map Method.ofName }

theorem pages_ofMethods (className : String) (methods : List String) :
    (ofMethods className methods).pages =
      [{ ClassPage.ofName className with methods := methods.map Method.ofName }] :=
  congrArg IndexedList.items (IndexedList.exact_empty.insert_of_notMem List.not_mem_nil)

theorem page?_ofMethods (className : String) (methods : List String) :
    (ofMethods className methods).page? className =
      some { ClassPage.ofName className with methods := methods.map Method.ofName } := by
  rw [page?_eq, pages_ofMethods]
  exact List.find?_cons_of_pos (decide_eq_true rfl)

theorem isSome_page?_ofMethods (className : String) (methods : List String) :
    ((ofMethods className methods).page? className).isSome = true := by
  rw [page?_ofMethods, Option.isSome_some]

theorem hasMethod_ofMethods_iff {className owner other : String} {methods : List String} :
    (ofMethods className methods).hasMethod owner other = true ↔
      owner = className ∧ other ∈ methods := by
  by_cases same : owner = className
  · rw [same, hasMethod, page?_ofMethods, Option.any_some, ClassPage.hasMethod, List.any_map,
      List.any_eq_true]
    simp only [Function.comp_apply, decide_eq_true_eq, true_and]
    exact exists_eq_right
  · have none : (ofMethods className methods).page? owner = none := by
      have isOther : ¬ decide (className = owner) = true := mt of_decide_eq_true (Ne.symm same)
      rw [page?_eq, pages_ofMethods]
      exact List.find?_cons_of_neg isOther
    simp [hasMethod, none, same]

/-- A line that does not keep the place opens the one method of some library. -/
theorem exists_opened_of_not_keepsPlace {line : String} (moves : ¬ KeepsPlace (tokenize line)) :
    ∃ method, ((ofMethods "Cog" [method]).scanSource "Cog" [line]).place.currentFunction? =
      some ("Cog", method) := by
  obtain ⟨noPound, noSemicolon, names⟩ : _ ∧ _ ∧ _ := by
    simpa only [KeepsPlace, not_or, Bool.not_eq_true, Bool.not_eq_false] using moves
  obtain ⟨method, opens⟩ := exists_opened_of_namesFunction names
  refine ⟨method, ?_⟩
  have opened : ((ofMethods "Cog" [method]).scanSource "Cog" [line]).place.currentFunction?.isSome =
      true := by
    rw [place_scanSource (isSome_page?_ofMethods ..), List.map_singleton, List.foldl_cons,
      List.foldl_nil, placeBehind, if_neg (Bool.eq_false_iff.mp noPound),
      if_neg (Bool.eq_false_iff.mp noSemicolon)]
    have isMethod : (ofMethods "Cog" [method]).hasMethod "Cog" method = true :=
      hasMethod_ofMethods_iff.mpr ⟨rfl, List.mem_singleton_self method⟩
    refine opens _ _ (fun page member => ?_) isMethod
    rw [pages_ofMethods] at member
    rw [List.mem_singleton.mp member]
    rfl
  obtain ⟨⟨owner, function⟩, current⟩ := Option.isSome_iff_exists.mp opened
  obtain ⟨rfl, isMethod⟩ := hasMethod_ofMethods_iff.mp (hasMethod_of_currentFunction? current)
  rwa [List.mem_singleton.mp isMethod] at current

/-- The exceptions of a library of one class are those that the lines raise in it. -/
theorem exceptionLists_scanSource_ofMethods (className : String) (methods lines : List String) :
    ((ofMethods className methods).scanSource className lines).library.exceptionLists =
      [(className, ((((ofMethods className methods).recordsFrom className ⟨className, none⟩
        (lines.map tokenize)).filterMap (SourceRecord.raisedBy? className)).foldl Method.raise
          (methods.map Method.ofName)).map fun method => (method.name, method.exceptions))] := by
  rw [library_scanSource, exceptionLists_foldl_apply, sourceRecords, page?_ofMethods]
  rfl

/-- There are lines that have an exception recorded with whatever function is open. -/
theorem exists_notice :
    ∃ (line : String) (exception : RaisedException), ∀ place : SourcePlace,
      raisedOn place (tokenize line) =
        (place.currentFunction?.map fun opened =>
          SourceRecord.raises opened.1 opened.2 exception).toList :=
  ⟨"DoNotifyException(\"Bad path\", \"It was empty\");", ⟨"Bad path", "It was empty"⟩,
    raisedOn_of_notified (by decide +kernel) (by decide +kernel) (by decide +kernel)⟩

/-- Such a line has an exception of the next line recorded that is not recorded without it. -/
theorem exists_exceptionLists_insert_ne {line : String} (moves : ¬ KeepsPlace (tokenize line)) :
    ∃ (library : Library) (home : String) (later : List String),
      (library.scanSource home (line :: later)).library.exceptionLists ≠
        (library.scanSource home later).library.exceptionLists := by
  obtain ⟨method, current⟩ := exists_opened_of_not_keepsPlace moves
  obtain ⟨notice, exception, notified⟩ := exists_notice
  rw [place_scanSource (isSome_page?_ofMethods ..), List.map_singleton, List.foldl_cons,
    List.foldl_nil] at current
  have quietLine : raisedOn ⟨"Cog", none⟩ (tokenize line) = [] :=
    raisedOn_of_noSemicolon (Bool.eq_false_iff.mpr (not_or.mp (not_or.mp moves).2).1) _
  refine ⟨ofMethods "Cog" [method], "Cog", [notice], fun same => ?_⟩
  rw [exceptionLists_scanSource_ofMethods, exceptionLists_scanSource_ofMethods] at same
  simp only [List.map_cons, List.map_nil, raised_recordsFrom_cons, quietLine, notified,
    current] at same
  simp [recordsFrom, SourceRecord.raisedBy?, Method.raise_cons, Method.addException,
    Method.ofName] at same

/-- Of the lines that do not name the notifying function, those may stand between any lines of any
implementation, with no exception recorded otherwise, which keep the place.  They are the lines
which cannot lead the scan elsewhere. -/
theorem exceptionLists_insert_iff {line : String}
    (quiet : Token.ofWord notifyFunction ∉ tokenize line) :
    ((∀ (library : Library) (home : String) (earlier later : List String),
        (library.scanSource home (earlier ++ line :: later)).library.exceptionLists =
          (library.scanSource home (earlier ++ later)).library.exceptionLists) ↔
      KeepsPlace (tokenize line)) ∧
    ((∀ (library : Library) (home : String) (earlier : List String),
        (library.scanSource home (earlier ++ [line])).place =
          (library.scanSource home earlier).place) ↔
      KeepsPlace (tokenize line)) := by
  refine ⟨⟨fun harmless => ?_, fun keeps => exceptionLists_insert keeps quiet⟩,
    fun stays => ?_, place_scanSource_insert⟩
  · by_contra moves
    obtain ⟨library, home, later, differ⟩ := exists_exceptionLists_insert_ne moves
    exact differ (harmless library home [] later)
  · by_contra moves
    obtain ⟨method, current⟩ := exists_opened_of_not_keepsPlace moves
    have nothingOpen := stays (ofMethods "Cog" [method]) "Cog" []
    rw [List.nil_append] at nothingOpen
    rw [nothingOpen, place_scanSource (isSome_page?_ofMethods ..)] at current
    cases current

/-- A statement may stand anywhere, whatever functions it names and whatever follows it. -/
theorem exceptionLists_insert_iff_statement :
    Token.ofWord notifyFunction ∉ tokenize "saved = Cog::Save(path); # checked" ∧
      KeepsPlace (tokenize "saved = Cog::Save(path); # checked") ∧
      ∀ (library : Library) (home : String) (earlier later : List String),
        (library.scanSource home
            (earlier ++ "saved = Cog::Save(path); # checked" :: later)).library.exceptionLists =
          (library.scanSource home (earlier ++ later)).library.exceptionLists := by
  have quiet : Token.ofWord notifyFunction ∉ tokenize "saved = Cog::Save(path); # checked" := by
    decide +kernel
  have keeps : KeepsPlace (tokenize "saved = Cog::Save(path); # checked") := by decide +kernel
  exact ⟨quiet, keeps, (exceptionLists_insert_iff quiet).1.mpr keeps⟩

/-- A line that holds `#`, though not in front, leads the scan from `Cog::Load` to `Cog::Save`. -/
theorem exceptionLists_insert_pound :
    let library := ofMethods "Cog" ["Load", "Save"]
    let notice := "DoNotifyException(\"Bad path\", \"It was empty\");"
    let inserted := "Cog::Save #define"
    Token.hasKind .pound (tokenize inserted) = true ∧
      Token.ofWord notifyFunction ∉ tokenize inserted ∧
      (library.scanSource "Cog" ["void Cog::Load()", inserted, notice]).library.exceptionLists ≠
        (library.scanSource "Cog" ["void Cog::Load()", notice]).library.exceptionLists := by
  decide +kernel

end Library

end ApiReference
