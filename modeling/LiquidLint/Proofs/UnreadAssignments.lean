import LiquidLint.Proofs.CleanFixes
import LiquidLint.Proofs.FreshStarts

/-!
# Assignments that nothing reads

The check of assignments is called for one node of a template after the other, and tells at the end of the
file which assignments nothing reads.  What it reports is a fact about the nodes of the template as a whole
(`offenses_unusedAssign`): an assignment is reported if its variable is not among the names that are read
anywhere, before or behind it, and does not start with an underscore.

This holds with two exceptions.  The check starts over at each document, and a tag that the source names
`document` passes for one, so that only what stands behind the last of these is looked at (`sinceDocument`).
And an assignment without a variable is left out altogether, with what stands behind its equals sign
(`targetless`).
-/

namespace LiquidLint
namespace Rule
namespace Assignment

open Source Analysis Liquid

/-! ## What a template reads and assigns -/

/-- The names that are found in a text. -/
def namesIn (t : Text) : List Text := (identifiers t).map Ident.name

theorem namesIn_nil : namesIn [] = [] := by
  rw [namesIn, identifiers, identsFrom]
  rfl

/-- The text of a node that is read: a variable, the right side of an assignment, or the markup of a tag
other than comments, captures and `liquid` tags. -/
def readText (h : Head) : Text :=
  match h.kind with
  | .variable => h.markup
  | .tag =>
    if h.name = "assign" then (Text.cut? h.markup "=").elim [] (·.2)
    else if h.name = "comment" ∨ h.name = "#" ∨ h.name = "capture" ∨ h.name = "liquid" then []
    else h.markup
  | .document | .raw => []

/-- The names that some nodes read. -/
def namesRead (hs : List Head) : List Text := hs.flatMap fun h => namesIn (readText h)

/-- The variable that a node assigns. -/
def target? (h : Head) : Option Text :=
  if h.kind = .tag ∧ h.name = "assign" then assignTarget? h.markup else none

/-- Whether the node is an assignment without a variable. -/
def targetless (h : Head) : Bool :=
  h.kind = .tag && h.name = "assign" && (assignTarget? h.markup).isNone

/-- The nodes that assign a variable which is not among the names `read` and does not start with an
underscore, each with its variable. -/
def unread (read : List Text) (hs : List Head) : List (Head × Text) :=
  hs.filterMap fun h => (target? h).bind fun name =>
    if read.contains name || Text.startsWith name "_" then none else some (h, name)

/-- The offense on an assignment that nothing reads. -/
def unreadOffense (f : SourceFile) (h : Head) (name : Text) : Offense :=
  { code := "UnusedAssign"
    severity := .suggestion
    message := "`" ++ name ++ "` is assigned but never used"
    path := f.path
    version := f.version
    start := f.position h.start
    stop := f.position h.stop
    correctable := !h.inLiquid }

/-- Whether the node passes for a document. -/
def isDocument (h : Head) : Bool := h.kind = .document || (h.kind = .tag && h.name = "document")

/-- The nodes behind the last one that passes for a document. -/
def sinceDocument (hs : List Head) : List Head := (hs.reverse.takeWhile fun h => !isDocument h).reverse

/-! ## Visited nodes -/

theorem visitedNodes_node {f : SourceFile} {e : Event} {n : Source.Node} (he : e.kind ≠ "document")
    (past : List Visit) : visitedNodes (.node f e n :: past) = visitedNodes past ++ [n] := by
  unfold visitedNodes
  rw [List.takeWhile_cons_of_pos (by simpa using he), List.reverse_cons, List.filterMap_append]
  rfl

/-- The visits of a node, which come one for each of its kinds that the check waits for. -/
def visitsOf (f : SourceFile) (n : Source.Node) : List Visit :=
  unusedAssign.visitsFor f .liquid ((n.events .on).map (·, n))

/-- Whether nodes that fire under the kind are kept for the end of the file. -/
def keeps (kind : Text) : Bool := kind = "variable" || kind = "tag"

/-- The node as often as it is kept when it is visited. -/
def kept (n : Source.Node) : List Source.Node := (n.eventKinds.filter keeps).map fun _ => n

theorem visitsOf_eq (f : SourceFile) (n : Source.Node) :
    visitsOf f n =
      (n.eventKinds.filter fun kind => kind = ("document" : Text) || keeps kind).map
        fun kind => .node f ⟨.on, kind⟩ n := by
  have hlistens (kind : Text) :
      unusedAssign.listensTo .liquid ⟨.on, kind⟩ = (kind = "document" || keeps kind) := by
    rw [Bool.eq_iff_iff]
    show (true && [(⟨.on, "document"⟩ : Event), ⟨.on, "variable"⟩, ⟨.on, "tag"⟩].contains
      ⟨.on, kind⟩) = true ↔ _
    simp [keeps]
  unfold visitsOf Check.visitsFor Source.Node.events
  rw [List.map_map, List.filter_map, List.map_map]
  simp only [Function.comp_def, hlistens]

theorem visitedNodes_kinds (f : SourceFile) (n : Source.Node) {kinds : List Text}
    (hkinds : ("document" : Text) ∉ kinds) (past : List Visit) :
    visitedNodes ((kinds.map fun kind => .node f ⟨.on, kind⟩ n).reverse ++ past) =
      visitedNodes past ++ kinds.map fun _ => n := by
  induction kinds generalizing past with
  | nil => exact (List.append_nil _).symm
  | cons kind rest ih =>
    obtain ⟨hkind, hrest⟩ := not_or.1 fun hmem => hkinds (List.mem_cons.2 hmem)
    rw [List.map_cons, List.reverse_cons, List.append_assoc, List.singleton_append, ih hrest,
      visitedNodes_node (Ne.symm hkind), List.append_assoc]
    rfl

/-- **One node** is kept for the end of the file, or what was kept before is dropped. -/
theorem visitedNodes_visitsOf (f : SourceFile) (n : Source.Node) (past : List Visit) :
    visitedNodes ((visitsOf f n).reverse ++ past) =
      if n.kind = "document" then [] else visitedNodes past ++ kept n := by
  rw [visitsOf_eq]
  have hkinds : n.eventKinds =
      (("node" : Text) :: if n.isTag then [("tag" : Text)] else []) ++ [n.kind] := rfl
  by_cases hdocument : n.kind = "document"
  · rw [if_pos hdocument, hkinds, hdocument, List.filter_append, List.map_append,
      List.reverse_append, List.append_assoc]
    exact visitedNodes_document rfl _
  · have hnone : ("document" : Text) ∉ n.eventKinds := by
      rw [hkinds, List.mem_append, List.mem_singleton]
      refine not_or.2 ⟨?_, Ne.symm hdocument⟩
      cases n.isTag <;> decide
    have hfilter : (n.eventKinds.filter fun kind => kind = ("document" : Text) || keeps kind) =
        n.eventKinds.filter keeps := by
      refine List.filter_congr fun kind hkind => ?_
      rw [decide_eq_false fun heq : kind = "document" => hnone (heq ▸ hkind), Bool.false_or]
    rw [if_neg hdocument, hfilter, kept]
    exact visitedNodes_kinds f n (fun hmem => hnone (List.mem_filter.1 hmem).1) past

/-- The nodes behind the last one that passes for a document. -/
def nodesSince (ns : List Source.Node) : List Source.Node :=
  (ns.reverse.takeWhile fun n => n.kind ≠ ("document" : Text)).reverse

/-- **A walk**: what is kept at the end are the nodes behind the last document. -/
theorem visitedNodes_walk (f : SourceFile) {past : List Visit} (hpast : visitedNodes past = [])
    (ns : List Source.Node) :
    visitedNodes ((ns.flatMap (visitsOf f)).reverse ++ past) = (nodesSince ns).flatMap kept := by
  induction ns using List.reverseRecOn with
  | nil => exact hpast
  | append_singleton ns n ih =>
    rw [List.flatMap_append, List.flatMap_singleton, List.reverse_append, List.append_assoc,
      visitedNodes_visitsOf, ih]
    unfold nodesSince
    rw [List.reverse_append, List.reverse_singleton, List.singleton_append]
    by_cases hdocument : n.kind = "document"
    · rw [if_pos hdocument, List.takeWhile_cons_of_neg (by simpa using hdocument)]
      rfl
    · rw [if_neg hdocument, List.takeWhile_cons_of_pos (by simpa using hdocument), List.reverse_cons,
        List.flatMap_append, List.flatMap_singleton]

/-- The check starts over at a document. -/
theorem nodesSince_cons {root : Source.Node} (hroot : root.kind = "document") (ns : List Source.Node) :
    nodesSince (root :: ns) = nodesSince ns := by
  unfold nodesSince
  rw [List.reverse_cons, List.takeWhile_append, List.takeWhile_cons_of_neg (by simpa using hroot),
    List.append_nil, ite_eq_right_iff.2]
  intro hall
  rw [(List.takeWhile_sublist _).eq_of_length hall]

theorem exists_root (src : Text) : ∃ children, (parse src).root =
    .mk { kind := .document, start := 0, stop := src.length, openEnd := 0 } children := ⟨_, rfl⟩

/-- **What the check has seen of a template** when the file ends. -/
theorem exists_fileVisits {f : SourceFile} (hf : Spacing.IsTemplate f) (past : List Visit) :
    ∃ visits, unusedAssign.fileVisits f = visits ++ [.endFile f] ∧
      (∀ v ∈ visits, ∃ e n, v = .node f e n) ∧
      visitedNodes (visits.reverse ++ past) =
        (nodesSince (Source.Node.ofLiquid f.source.length (parse f.source).root).walk).flatMap kept := by
  have hon : ∀ e ∈ unusedAssign.subscriptions, e.phase = .on := by decide
  refine ⟨_, Spacing.fileVisits_of_template hf rfl, fun v hv => ?_, ?_⟩
  · obtain ⟨p, -, rfl⟩ := List.mem_map.1 hv
    exact ⟨_, _, rfl⟩
  · obtain ⟨children, hroot⟩ := exists_root f.source
    rw [Check.visitsFor_firings hon, hroot, Source.Node.ofLiquid, Source.Node.walk,
      nodesSince_cons rfl, List.flatMap_cons, List.reverse_append, List.append_assoc]
    -- the root is a document, so that what was seen before does not count
    exact visitedNodes_walk f ((visitedNodes_visitsOf f _ past).trans (if_pos rfl)) _

/-! ## Nodes and their heads -/

/-- A node without its children. -/
def bare (n : Source.Node) : Source.Node := .mk n.shape n.span []

/-- The node of a head, without children. -/
def nodeOf (h : Head) : Source.Node := .mk (.liquid h) ⟨h.start, h.stop⟩ []

theorem walk_bare (src : Text) :
    (Source.Node.ofLiquid src.length (parse src).root).walk.map bare =
      ((parse src).root.walk fun _ => true).map nodeOf := by
  have hwalk := congrArg (List.map fun p : Shape × Span => Source.Node.mk p.1 p.2 [])
    (Source.Node.walk_ofLiquid src.length (parse src).root)
  rw [List.map_map, List.map_map] at hwalk
  refine hwalk.trans (List.map_congr_left fun h hh => ?_)
  obtain ⟨hopen, hclose, hstop⟩ := placed_of_walk hh
  rw [Function.comp_apply, Spacing.within_eq (Nat.le_trans hopen hclose) hstop]
  rfl

theorem kind_nodeOf (h : Head) : (nodeOf h).kind = "document" ↔ isDocument h = true := by
  show (Shape.liquid h).kind = _ ↔ _
  unfold Shape.kind isDocument
  dsimp only
  cases hkind : h.kind with
  | document => exact iff_of_true rfl rfl
  | raw => exact iff_of_false (show ("raw" : Text) ≠ "document" by decide) Bool.false_ne_true
  | «variable» =>
    exact iff_of_false (show ("variable" : Text) ≠ "document" by decide) Bool.false_ne_true
  | tag =>
    dsimp only
    split
    · rename_i hcomment
      have hname : h.name ≠ "document" := fun heq => absurd (heq ▸ hcomment) (by decide)
      exact iff_of_false (by decide) (by simp [hname])
    · simp

theorem nodesSince_walk (src : Text) :
    (nodesSince (Source.Node.ofLiquid src.length (parse src).root).walk).map bare =
      (sinceDocument ((parse src).root.walk fun _ => true)).map nodeOf := by
  have hbare : ((fun n : Source.Node => decide (n.kind ≠ ("document" : Text))) ∘ bare) =
      fun n : Source.Node => decide (n.kind ≠ ("document" : Text)) := rfl
  have hhead : ((fun n : Source.Node => decide (n.kind ≠ ("document" : Text))) ∘ nodeOf) =
      fun h => !isDocument h := by
    funext h
    rw [Function.comp_apply, Bool.eq_iff_iff, decide_eq_true_iff, ne_eq, kind_nodeOf, Bool.not_eq_true',
      Bool.not_eq_true]
  unfold nodesSince sinceDocument
  rw [List.map_reverse, ← hbare, ← List.takeWhile_map, List.map_reverse, walk_bare, ← List.map_reverse,
    List.takeWhile_map, hhead, List.map_reverse]

/-! ## One node -/

section One

variable {h : Head}

theorem kept_of_other (hkind : h.kind = .document ∨ h.kind = .raw) : kept (nodeOf h) = [] := by
  have hword : keeps (nodeOf h).kind = false := by
    show keeps (Shape.liquid h).kind = false
    unfold Shape.kind
    dsimp only
    rcases hkind with hkind | hkind
    · rw [hkind]
      exact (by decide : keeps "document" = false)
    · rw [hkind]
      exact (by decide : keeps "raw" = false)
  have htag : (nodeOf h).isTag = false := by
    refine decide_eq_false fun heq => ?_
    rcases hkind with hkind | hkind <;>
      · rw [hkind] at heq
        cases heq
  unfold kept Source.Node.eventKinds
  rw [htag, if_neg Bool.false_ne_true, List.filter_cons_of_neg (by decide), List.nil_append,
    List.filter_cons_of_neg (Bool.eq_false_iff.1 hword)]
  rfl

theorem kept_of_variable (hkind : h.kind = .variable) : kept (nodeOf h) = [nodeOf h] := by
  have hword : (nodeOf h).kind = "variable" := Spacing.kind_of_variable hkind
  have htag : (nodeOf h).isTag = false := decide_eq_false (by rw [hkind]; nofun)
  unfold kept Source.Node.eventKinds
  rw [hword, htag]
  rfl

/-- A tag is kept once, and once more if its name is a kind that the check waits for. -/
theorem kept_of_tag (hkind : h.kind = .tag) :
    kept (nodeOf h) = nodeOf h :: if keeps (nodeOf h).kind then [nodeOf h] else [] := by
  have htag : (nodeOf h).isTag = true := decide_eq_true hkind
  unfold kept Source.Node.eventKinds
  rw [htag, if_pos rfl, List.filter_cons_of_neg (by decide), List.singleton_append,
    List.filter_cons_of_pos (by decide)]
  cases hword : keeps (nodeOf h).kind with
  | false => rw [List.filter_cons_of_neg (Bool.eq_false_iff.1 hword)]; rfl
  | true => rw [List.filter_cons_of_pos hword]; rfl

/-- The kind of a tag is its name, but for comments. -/
theorem kind_tag (hkind : h.kind = .tag) :
    (nodeOf h).kind = if h.name = "comment" || h.name = "#" then ("comment" : Text) else h.name := by
  show (Shape.liquid h).kind = _
  unfold Shape.kind
  dsimp only
  rw [hkind]

/-- The report on a node, if its variable is not among the names `read`. -/
def report? (f : SourceFile) (read : List Text) (n : Source.Node) : Option Report :=
  (assigned? n).bind fun name =>
    if read.contains name || Text.startsWith name "_" then none else some (unusedReport f n name)

theorem unusedReports_eq (f : SourceFile) (ns : List Source.Node) :
    unusedReports f ns = ns.filterMap (report? f (ns.flatMap readNames)) := by
  refine List.filterMap_congr fun n _ => ?_
  unfold report?
  cases assigned? n <;> rfl

/-- A tag that assigns is no variable. -/
theorem kind_of_assign (hkind : h.kind = .tag) (hname : h.name = "assign") :
    (nodeOf h).kind = "assign" := by
  rw [kind_tag hkind, hname]
  rfl

theorem assigned?_nodeOf (hkind : h.kind = .variable ∨ h.kind = .tag) :
    assigned? (nodeOf h) = target? h := by
  unfold assigned? target?
  rcases hkind with hkind | hkind
  · have hword : (nodeOf h).kind = "variable" := Spacing.kind_of_variable hkind
    rw [hword, hkind, if_neg (by simp), if_neg (by simp)]
  · by_cases hname : h.name = "assign"
    · have hother : (nodeOf h).kind ≠ "variable" := by
        rw [kind_of_assign hkind hname]
        decide
      have htag : (nodeOf h).tag = "assign" := hname
      rw [htag, if_pos (by simpa using hother), if_pos ⟨hkind, hname⟩]
      rfl
    · have htag : (nodeOf h).tag ≠ "assign" := hname
      rw [if_neg (by simp [htag]), if_neg fun hand => hname hand.2]

/-- **A node is reported on once** if it assigns a variable that is not read. -/
theorem reports_kept (f : SourceFile) (read : List Text) :
    (kept (nodeOf h)).filterMap (report? f read) =
      ((target? h).bind fun name => if read.contains name || Text.startsWith name "_" then none
        else some (unusedReport f (nodeOf h) name)).toList := by
  have hone : [nodeOf h].filterMap (report? f read) = (report? f read (nodeOf h)).toList := by
    rw [List.filterMap_cons]
    cases report? f read (nodeOf h) <;> rfl
  have hother (hkind : h.kind = .document ∨ h.kind = .raw) : target? h = none := by
    refine if_neg fun hand => ?_
    rcases hkind with hkind | hkind <;>
      · rw [hkind] at hand
        cases hand.1
  cases hkind : h.kind with
  | document =>
    rw [kept_of_other (.inl hkind), hother (.inl hkind)]
    rfl
  | raw =>
    rw [kept_of_other (.inr hkind), hother (.inr hkind)]
    rfl
  | «variable» =>
    rw [kept_of_variable hkind, hone, report?, assigned?_nodeOf (.inl hkind)]
  | tag =>
    rw [kept_of_tag hkind]
    by_cases hassign : h.name = "assign"
    · have hword : keeps (nodeOf h).kind = false := by
        rw [kind_tag hkind, hassign]
        decide
      rw [hword, if_neg Bool.false_ne_true, hone, report?,
        assigned?_nodeOf (.inr hkind)]
    · have hnone : target? h = none := if_neg fun hand => hassign hand.2
      have hreport : report? f read (nodeOf h) = none := by
        rw [report?, assigned?_nodeOf (.inr hkind), hnone]
        rfl
      rw [hnone, List.filterMap_cons_none hreport]
      split
      · rw [List.filterMap_cons_none hreport]
        rfl
      · rfl

/-- A tag reads the names in its text, if it is not an assignment without a variable. -/
theorem readNames_of_tag (hkind : h.kind = .tag) :
    readNames (nodeOf h) = if targetless h then [] else namesIn (readText h) := by
  have htag : (nodeOf h).tag = h.name := rfl
  have hmarkup : (nodeOf h).markup = h.markup := rfl
  unfold readNames readText targetless
  rw [htag, hmarkup, hkind]
  by_cases hassign : h.name = "assign"
  · rw [kind_of_assign hkind hassign, hassign, if_neg (by decide), if_pos rfl]
    cases assignTarget? h.markup <;> rfl
  · have hnever : (decide (h.name = "assign") : Bool) = false := decide_eq_false hassign
    rw [hnever, Bool.and_false, Bool.false_and, if_neg Bool.false_ne_true]
    dsimp only
    rw [if_neg hassign, if_neg hassign]
    by_cases hleft : h.name = "comment" ∨ h.name = "#" ∨ h.name = "capture" ∨ h.name = "liquid"
    · have hother : (nodeOf h).kind ≠ "variable" := by
        rw [kind_tag hkind]
        split
        · decide
        · exact fun heq => absurd (heq ▸ hleft) (by decide)
      rw [if_pos hleft, if_neg hother, if_pos]
      · exact namesIn_nil.symm
      · rw [kind_tag hkind]
        rcases hleft with hname | hname | hname | hname <;>
          · rw [hname]
            decide
    · obtain ⟨hcomment, hsharp, hcapture, hliquid⟩ := by simpa only [not_or] using hleft
      have hword : (nodeOf h).kind = h.name := by
        rw [kind_tag hkind, if_neg (by simp [hcomment, hsharp])]
      rw [if_neg hleft, hword, if_neg (c := _ = true) (by simp [hcomment, hcapture, hliquid]), ite_self]
      rfl

/-- **A node reads** the names in its text, if it is not an assignment without a variable. -/
theorem mem_reads_kept (name : Text) :
    name ∈ (kept (nodeOf h)).flatMap readNames ↔ targetless h = false ∧ name ∈ namesIn (readText h) := by
  have hother (hkind : h.kind = .document ∨ h.kind = .raw) :
      name ∈ (kept (nodeOf h)).flatMap readNames ↔
        targetless h = false ∧ name ∈ namesIn (readText h) := by
    have htext : readText h = [] := by
      unfold readText
      rcases hkind with hkind | hkind <;> rw [hkind]
    rw [kept_of_other hkind, htext, namesIn_nil]
    exact iff_of_false List.not_mem_nil fun hand => List.not_mem_nil hand.2
  cases hkind : h.kind with
  | document => exact hother (.inl hkind)
  | raw => exact hother (.inr hkind)
  | «variable» =>
    have hread : readNames (nodeOf h) = namesIn (readText h) := by
      have hword : (nodeOf h).kind = "variable" := Spacing.kind_of_variable hkind
      unfold readNames readText
      rw [hword, if_pos rfl, hkind]
      rfl
    have htarget : targetless h = false := by
      unfold targetless
      rw [hkind]
      rfl
    rw [kept_of_variable hkind, List.flatMap_singleton, hread, htarget]
    exact (and_iff_right rfl).symm
  | tag =>
    have hmem : name ∈ (kept (nodeOf h)).flatMap readNames ↔ name ∈ readNames (nodeOf h) := by
      rw [kept_of_tag hkind]
      cases keeps (nodeOf h).kind <;> simp
    rw [hmem, readNames_of_tag hkind]
    cases targetless h <;> simp

end One

/-! ## The reports on a template -/

/-- What the check reports depends on the nodes without their children. -/
theorem offenses_bare (f : SourceFile) (ns : List Source.Node) :
    (unusedReports f ns).map (Report.offense unusedAssign.info f) =
      (unusedReports f (ns.map bare)).map (Report.offense unusedAssign.info f) := by
  have hread : (ns.map bare).flatMap readNames = ns.flatMap readNames := List.flatMap_map ..
  rw [unusedReports_eq, unusedReports_eq, hread, List.filterMap_map, List.map_filterMap,
    List.map_filterMap]
  refine List.filterMap_congr fun n _ => ?_
  have hassigned : assigned? (bare n) = assigned? n := rfl
  rw [Function.comp_apply, report?, report?, hassigned]
  cases assigned? n with
  | none => rfl
  | some name =>
    dsimp only [Option.bind_some]
    split <;> rfl

theorem offense_nodeOf (f : SourceFile) (h : Head) (name : Text) :
    (unusedReport f (nodeOf h) name).offense unusedAssign.info f = unreadOffense f h name := by
  have hfix : (unusedReport f (nodeOf h) name).fix.isSome = !h.inLiquid := by
    have hline : inLiquid (nodeOf h) = h.inLiquid := rfl
    unfold unusedReport
    rw [hline]
    cases h.inLiquid <;> rfl
  unfold Report.offense
  rw [hfix]
  rfl

/-- **The offenses on what is kept** of some nodes. -/
theorem offenses_kept (f : SourceFile) (hs : List Head) :
    (unusedReports f ((hs.map nodeOf).flatMap kept)).map (Report.offense unusedAssign.info f) =
      (unread (namesRead (hs.filter fun h => !targetless h)) hs).map
        fun p => unreadOffense f p.1 p.2 := by
  have hreports (read : List Text) : ((hs.map nodeOf).flatMap kept).filterMap (report? f read) =
      hs.filterMap fun h => (target? h).bind fun name =>
        if read.contains name || Text.startsWith name "_" then none
        else some (unusedReport f (nodeOf h) name) := by
    induction hs with
    | nil => rfl
    | cons h rest ih =>
      rw [List.map_cons, List.flatMap_cons, List.filterMap_append, ih, reports_kept,
        List.filterMap_cons]
      cases (target? h).bind _ <;> rfl
  have hread (name : Text) :
      (((hs.map nodeOf).flatMap kept).flatMap readNames).contains name =
        (namesRead (hs.filter fun h => !targetless h)).contains name := by
    rw [Bool.eq_iff_iff, List.contains_iff_mem, List.contains_iff_mem, namesRead, List.flatMap_assoc,
      List.flatMap_map, List.mem_flatMap, List.mem_flatMap]
    refine exists_congr fun h => ?_
    rw [mem_reads_kept, List.mem_filter, Bool.not_eq_true', and_assoc]
  rw [unusedReports_eq, hreports, unread, List.map_filterMap, List.map_filterMap]
  refine List.filterMap_congr fun h _ => ?_
  cases target? h with
  | none => rfl
  | some name =>
    dsimp only [Option.bind_some]
    rw [hread name]
    split
    · rfl
    · exact congrArg some (offense_nodeOf f h name)

/-! ## The whole check -/

/-- The reports on a visit: there are some at the ends of files only. -/
def reportsAt (past : List Visit) : Visit → List Report
  | .node _ _ _ => []
  | .endFile f => unusedReports f (visitedNodes past)

theorem onlyReports_unusedAssign : unusedAssign.OnlyReports reportsAt := by
  intro past v
  cases v <;> rfl

theorem reportsOn_nodes {f : SourceFile} {visits : List Visit}
    (hvisits : ∀ v ∈ visits, ∃ e n, v = .node f e n) (past : List Visit) :
    reportsOn reportsAt past visits = [] := by
  induction visits generalizing past with
  | nil => rfl
  | cons v rest ih =>
    obtain ⟨e, n, rfl⟩ := hvisits v (List.mem_cons_self ..)
    exact ih (fun w hw => hvisits w (List.mem_cons_of_mem _ hw)) _

/-- What is reported on a template are the reports on what the check has seen of it. -/
theorem reportsOn_fileVisits {f : SourceFile} (hf : Spacing.IsTemplate f) (past : List Visit) :
    (reportsOn reportsAt past (unusedAssign.fileVisits f)).map (Report.offense unusedAssign.info f) =
      let live := sinceDocument ((parse f.source).root.walk fun _ => true)
      (unread (namesRead (live.filter fun h => !targetless h)) live).map
        fun p => unreadOffense f p.1 p.2 := by
  obtain ⟨visits, hvisits, hnodes, hseen⟩ := exists_fileVisits hf past
  have hend : reportsOn reportsAt (visits.reverse ++ past) [.endFile f] =
      unusedReports f (visitedNodes (visits.reverse ++ past)) := List.append_nil _
  have hkept (ns : List Source.Node) : (ns.flatMap kept).map bare = (ns.map bare).flatMap kept := by
    rw [List.map_flatMap, List.flatMap_map]
    refine List.flatMap_congr fun n _ => ?_
    exact List.map_map
  rw [hvisits, reportsOn_append, reportsOn_nodes hnodes, List.nil_append, hend, hseen, offenses_bare,
    hkept, nodesSince_walk, offenses_kept]

/-- One for a document, zero for other nodes. -/
def documents (h : Head) : Nat := if h.kind = .document then 1 else 0

theorem steady_documents : Steady (fun _ => true) documents fun _ _ => 0 where
  descend_cutAt _ _ _ := rfl
  descend_closedBy _ _ _ := rfl
  cutAt_eq _ _ _ := rfl
  closedBy_eq _ _ _ := rfl

/-- Below the root of a template stands no document. -/
theorem kind_ne_document {src : Text} {h : Head}
    (hh : h ∈ Liquid.Node.walkAll (fun _ => true) (parse src).root.children) : h.kind ≠ .document := by
  have hnone : documents h = 0 := by
    refine eq_zero_below_root (Q := fun _ => True) steady_documents (fun _ _ => trivial)
      (fun _ _ _ _ _ => trivial) (fun b tok n _ hleaf => ?_) (fun _ _ _ => ⟨rfl, rfl⟩) hh
    cases hleaf <;> exact total_leaf _
  intro hkind
  rw [documents, if_pos hkind] at hnone
  cases hnone

/-- Without tags that are named `document`, all nodes of a template but its root are looked at. -/
theorem sinceDocument_walk {src : Text}
    (hnames : ∀ h ∈ (parse src).root.walk (fun _ => true), h.kind = .tag → h.name ≠ "document") :
    ∃ root, (parse src).root.walk (fun _ => true) =
        root :: sinceDocument ((parse src).root.walk fun _ => true) ∧ root.kind = .document := by
  obtain ⟨children, hroot⟩ := exists_root src
  have hbelow : ∀ h ∈ Liquid.Node.walkAll (fun _ => true) children, (!isDocument h) = true := by
    intro h hh
    have hbelow : h ∈ Liquid.Node.walkAll (fun _ => true) (parse src).root.children := by
      rw [hroot]
      exact hh
    have hkind := kind_ne_document hbelow
    have hname := hnames h (by rw [hroot, Liquid.Node.walk]; exact List.mem_cons_of_mem _ hh)
    simpa [isDocument, hkind, imp_iff_not_or] using hname
  rw [hroot, Liquid.Node.walk, if_pos rfl]
  refine ⟨_, congrArg (_ :: ·) ?_, rfl⟩
  have hdocument : isDocument
      { kind := .document, start := 0, stop := src.length, openEnd := 0 } = true := rfl
  generalize Liquid.Node.walkAll (fun _ => true) children = below at hbelow
  rw [sinceDocument, List.reverse_cons, List.takeWhile_append_of_pos, List.takeWhile_cons_of_neg,
    List.append_nil, List.reverse_reverse]
  · rw [hdocument]
    decide
  · exact fun h hh => hbelow h (List.mem_reverse.1 hh)

/-- What assignments without a variable read does not count, nor need it where they have no right side. -/
theorem namesRead_filter {hs : List Head}
    (htargets : ∀ h ∈ hs, h.kind = .tag → h.name = "assign" → (Text.cut? h.markup "=").isSome = true →
      (assignTarget? h.markup).isSome = true) :
    namesRead (hs.filter fun h => !targetless h) = namesRead hs := by
  induction hs with
  | nil => rfl
  | cons h rest ih =>
    have hrest := ih fun h' hh' => htargets h' (List.mem_cons_of_mem _ hh')
    cases htargetless : targetless h with
    | false =>
      rw [List.filter_cons_of_pos (by rw [htargetless]; rfl)]
      exact congrArg (namesIn (readText h) ++ ·) hrest
    | true =>
      have htext : readText h = [] := by
        simp only [targetless, Bool.and_eq_true, decide_eq_true_eq] at htargetless
        obtain ⟨⟨hkind, hname⟩, hnone⟩ := htargetless
        have hcut : Text.cut? h.markup "=" = none := by
          refine Option.not_isSome_iff_eq_none.1 fun hsome => ?_
          have htarget := htargets h (List.mem_cons_self ..) hkind hname hsome
          rw [Option.isNone_iff_eq_none.1 hnone] at htarget
          cases htarget
        unfold readText
        rw [hkind]
        dsimp only
        rw [if_pos hname, hcut]
        rfl
      rw [List.filter_cons_of_neg (by rw [htargetless]; decide), hrest, namesRead, namesRead,
        List.flatMap_cons, htext, namesIn_nil, List.nil_append]

/-- **The offenses of the check of assignments** on a template without suppressions, whatever it has been
called for before.  They are the assignments that nothing reads, among the nodes behind the last tag that is
named `document`, and but for what assignments without a variable read.  Where there is no such tag and each
assignment has a variable, they are the assignments of the template that nothing in it reads. -/
theorem offenses_unusedAssign {path : Text} (hpath : (Project.classify path).category = .liquid)
    (content : Text) (version : Int)
    (hplain : Suppressions.directives (SourceFile.parse path content version) = [])
    (past : List Visit) :
    let f := SourceFile.parse path content version
    let heads := (parse f.source).root.walk fun _ => true
    let live := sinceDocument heads
    let offenses := (visitFile {} [⟨f, .ofFile f⟩] f [{ check := unusedAssign, past }] {}).2.offenses
    offenses = (unread (namesRead (live.filter fun h => !targetless h)) live).map
        (fun p => unreadOffense f p.1 p.2) ∧
      ((∀ h ∈ heads, h.kind = .tag → h.name ≠ "document") →
        (∀ h ∈ heads, h.kind = .tag → h.name = "assign" → (Text.cut? h.markup "=").isSome = true →
          (assignTarget? h.markup).isSome = true) →
        offenses = (unread (namesRead heads) heads).map fun p => unreadOffense f p.1 p.2) := by
  intro f heads live offenses
  have hoffenses : offenses = (unread (namesRead (live.filter fun h => !targetless h)) live).map
      (fun p => unreadOffense f p.1 p.2) := by
    show (visitFile {} [⟨f, .ofFile f⟩] f [{ check := unusedAssign, past }] {}).2.offenses = _
    rw [visitFile_single onlyReports_unusedAssign,
      offenses_raiseAll _ _ fun r => ⟨_, raise?_eq_of_plain hplain _ r⟩]
    exact reportsOn_fileVisits (Spacing.isTemplate_parse hpath content version) past
  refine ⟨hoffenses, fun hnames htargets => ?_⟩
  obtain ⟨root, hwalk, hroot⟩ := sinceDocument_walk hnames
  have hheads : heads = root :: live := hwalk
  have hread : namesRead heads = namesRead (live.filter fun h => !targetless h) := by
    have htext : readText root = [] := by
      unfold readText
      rw [hroot]
    rw [namesRead_filter fun h hh => htargets h (by rw [hheads]; exact List.mem_cons_of_mem _ hh),
      hheads, namesRead, List.flatMap_cons, htext, namesIn_nil]
    rfl
  have htarget : target? root = none := if_neg fun hand => by
    rw [hroot] at hand
    exact nomatch hand.1
  rw [hoffenses, hread, hheads]
  unfold unread
  rw [List.filterMap_cons_none (by rw [htarget]; rfl)]

/-- A page with an assignment that another assignment reads, and one that nothing reads. -/
def assignPage : Text :=
  "\x7b% assign b = 1 %\x7d\x7b% liquid\n  assign c = b\n%\x7d"

/-- The one that nothing reads is a line of a `liquid` tag, and has no fix. -/
theorem offenses_unusedAssign_page :
    let f := SourceFile.parse "app/views/pages/a.liquid" assignPage 1
    (visitFile {} [⟨f, .ofFile f⟩] f [{ check := unusedAssign }] {}).2.offenses =
      [{ code := "UnusedAssign"
         severity := .suggestion
         message := "`c` is assigned but never used"
         path := "app/views/pages/a.liquid"
         version := 1
         start := ⟨30, 1, 2⟩
         stop := ⟨42, 1, 14⟩ }] := by
  have hpath : (Project.classify "app/views/pages/a.liquid").category = .liquid := by decide +kernel
  have hplain : Suppressions.directives (SourceFile.parse "app/views/pages/a.liquid" assignPage 1) = [] :=
    by decide +kernel
  have hall := (offenses_unusedAssign hpath assignPage 1 hplain []).2 (by decide +kernel)
    (by decide +kernel)
  exact hall.trans (by decide +kernel)

/-- Two pages that read the variable `x`: one in front of a tag named `document`, and one in an assignment
without a variable. -/
def readingPages : List Text :=
  ["\x7b\x7b x \x7d\x7d\x7b% document %\x7d\x7b% assign x = 1 %\x7d",
    "\x7b% assign x = 1 %\x7d\x7b% assign y.z = x %\x7d"]

/-- Neither page has suppressions, and nothing in them is unread.  The assignment of `x` is reported all the
same. -/
theorem offenses_unusedAssign_readingPages :
    (readingPages.map fun content =>
      let f := SourceFile.parse "app/views/pages/a.liquid" content 1
      let heads := (parse f.source).root.walk fun _ => true
      ((Suppressions.directives f).isEmpty, (unread (namesRead heads) heads).map (·.2),
        (visitFile {} [⟨f, .ofFile f⟩] f [{ check := unusedAssign }] {}).2.offenses.map (·.message))) =
      readingPages.map fun _ => (true, [], [("`x` is assigned but never used" : Text)]) := by
  decide +kernel

end Assignment
end Rule
end LiquidLint
