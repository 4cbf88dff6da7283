import LiquidLint.Proofs.LeftOutPaths
import LiquidLint.Proofs.LinePlaces

/-!
# The order of the offenses of a run

The order of offenses looks at nine of their fields, and passes over the offset at which an offense starts
and the line and column at which it ends.  Offenses in general can agree in all nine and still differ.  Those
of one run cannot: each stands in the file that the snapshot has at its path, or at the start of an empty one
(`Offense.StandsIn`), and in the lines of one file a place is told by its line and column, and by its offset
(`Position.In`).  What a call to an analyzer raises is followed from report to offense, for each kind of
offense: of a check, of its breakdown, of a file that was not read, and of the project (`Sited.serve`).

So the order of the offenses of a run is a total order (`Offense.TotallyOrdered`), and they have one
arrangement (`totallyOrdered_raised`).
-/

namespace LiquidLint

open Source Store Analysis

/-! ## Places in lines -/

namespace Source

/-- The place of some offset in a source with these lines. -/
def Position.In (p : Position) (lines : List Span) : Prop := ∃ offset : Nat, p = positionIn lines offset

namespace Position.In

variable {p q : Position} {lines : List Span}

/-- **A place is told by its offset.** -/
theorem eq_of_offset (hp : p.In lines) (hq : q.In lines) (h : p.offset = q.offset) : p = q := by
  obtain ⟨i, rfl⟩ := hp
  obtain ⟨j, rfl⟩ := hq
  rw [Int.ofNat_inj.1 h]

/-- **A place is told by its line and column**: the line says where the columns are counted from. -/
theorem eq_of_line_column (hp : p.In lines) (hq : q.In lines) (hline : p.line = q.line)
    (hcolumn : p.column = q.column) : p = q := by
  obtain ⟨i, rfl⟩ := hp
  obtain ⟨j, rfl⟩ := hq
  unfold positionIn at hline hcolumn
  dsimp only at hline hcolumn
  rw [Int.ofNat_inj.1 hline] at hcolumn
  have hoffset : i = j := by omega
  rw [hoffset]

theorem position (f : SourceFile) (offset : Int) : (f.position offset).In f.lines := ⟨_, rfl⟩

/-- No lines have a start. -/
theorem start_nil : ({} : Position).In [] := ⟨0, rfl⟩

/-- Lines that start at the start of a source have it as their first place. -/
theorem start_cons (stop : Nat) (rest : List Span) : ({} : Position).In (⟨0, stop⟩ :: rest) := by
  refine ⟨0, ?_⟩
  unfold positionIn
  rw [List.findIdx_cons, decide_eq_true (Nat.zero_le stop)]
  rfl

/-- Every source has a start. -/
theorem start_lineTable (source : Text) : ({} : Position).In (lineTable source) := by
  have hdivides := divides_lineTable source
  generalize lineTable source = lines at *
  cases hdivides with
  | last => exact start_cons ..
  | line => exact start_cons ..

end Position.In
end Source

/-! ## Offenses that the order tells apart -/

/-- Severities that have a rank of their own. -/
def Severity.known : List Severity := [error, suggestion, style]

theorem Severity.eq_of_rank {s t : Severity} (hs : s ∈ known) (ht : t ∈ known) (h : s.rank = t.rank) :
    s = t := by
  have hranks : ∀ s ∈ known, ∀ t ∈ known, s.rank = t.rank → s = t := by decide
  exact hranks s hs t ht h

namespace Offense

/-- The offense starts and ends at places in the lines. -/
def StandsIn (o : Offense) (lines : List Span) : Prop := o.start.In lines ∧ o.stop.In lines

/-- The fields that the order looks at. -/
theorem order_eq_iff (a b : Offense) : order a b = .eq ↔
    a.path = b.path ∧ a.start.line = b.start.line ∧ a.start.column = b.start.column ∧
      a.message = b.message ∧ a.code = b.code ∧ a.stop.offset = b.stop.offset ∧
      a.severity.rank = b.severity.rank ∧ a.version = b.version ∧ a.correctable = b.correctable := by
  simp only [order, Ordering.then_eq_eq, Text.order_eq_iff, compare_eq_iff_eq]

/-- **Offenses in one file that the order does not tell apart are the same.** -/
theorem eq_of_order_eq {a b : Offense} {lines : List Span} (ha : a.StandsIn lines)
    (hb : b.StandsIn lines) (hknownA : a.severity ∈ Severity.known)
    (hknownB : b.severity ∈ Severity.known) (h : order a b = .eq) : a = b := by
  obtain ⟨hpath, hline, hcolumn, hmessage, hcode, hoffset, hrank, hversion, hcorrectable⟩ :=
    (order_eq_iff a b).1 h
  have hstart : a.start = b.start := ha.1.eq_of_line_column hb.1 hline hcolumn
  have hstop : a.stop = b.stop := ha.2.eq_of_offset hb.2 hoffset
  have hseverity : a.severity = b.severity := Severity.eq_of_rank hknownA hknownB hrank
  cases a
  cases b
  simp_all only

/-- The order tells all of these offenses apart, and any two of them stand one before the other. -/
structure TotallyOrdered (os : List Offense) : Prop where
  eq_iff : ∀ a ∈ os, ∀ b ∈ os, order a b = .eq ↔ a = b
  swap : ∀ a ∈ os, ∀ b ∈ os, order b a = (order a b).swap
  antisymm : ∀ a ∈ os, ∀ b ∈ os, le a b = true → le b a = true → a = b
  trans : ∀ a ∈ os, ∀ b ∈ os, ∀ c ∈ os, le a b = true → le b c = true → le a c = true
  total : ∀ a ∈ os, ∀ b ∈ os, le a b = true ∨ le b a = true

/-- It is enough that the order tells them apart. -/
theorem TotallyOrdered.of_eq {os : List Offense}
    (h : ∀ a ∈ os, ∀ b ∈ os, order a b = .eq → a = b) : TotallyOrdered os where
  eq_iff a ha b hb := ⟨h a ha b hb, fun hab => hab ▸ (order_eq_iff a a).2 (by simp)⟩
  swap a _ b _ := Std.OrientedCmp.eq_swap
  antisymm a ha b hb hab hba := by
    rw [le_iff] at hab hba
    exact h a ha b hb (Std.OrientedCmp.isLE_antisymm hab hba)
  trans a _ b _ c _ := le_trans a b c
  total a _ b _ := Bool.or_eq_true_iff.1 (le_total a b)

/-- **Offenses that are totally ordered have one arrangement.** -/
theorem TotallyOrdered.eq_sort {os arranged : List Offense} (h : TotallyOrdered os)
    (hperm : arranged.Perm os) (hsorted : arranged.Pairwise fun a b => le a b = true) :
    arranged = sort os := by
  have hsort : (sort os).Perm os := List.mergeSort_perm os le
  refine List.Perm.eq_of_pairwise (fun a b ha hb hab hba => ?_) hsorted
    (List.pairwise_mergeSort le_trans le_total os) (hperm.trans hsort.symm)
  exact h.antisymm a (hperm.mem_iff.1 ha) b (hsort.mem_iff.1 hb) hab hba

end Offense

/-! ## Checks given as data -/

namespace Script

/-- What reactions in order do, one of them does. -/
theorem mem_effects_inOrder {ρ : Type} {rs : List (Reaction ρ)} {e : Effect ρ}
    (h : e ∈ (inOrder rs).effects) : ∃ r ∈ rs, e ∈ r.effects := by
  induction rs with
  | nil => exact nomatch h
  | cons r rest ih =>
    rw [inOrder] at h
    cases hcrash : r.crash with
    | some detail =>
      rw [hcrash] at h
      exact ⟨r, List.mem_cons_self .., h⟩
    | none =>
      rw [hcrash] at h
      rcases List.mem_append.1 h with h | h
      · exact ⟨r, List.mem_cons_self .., h⟩
      · obtain ⟨r', hr', he⟩ := ih h
        exact ⟨r', List.mem_cons_of_mem _ hr', he⟩

/-- An action reports what it is to wrap, if anything. -/
theorem exists_of_report_mem_act {ρ : Type} {wrap : Report → ρ} {code : Text}
    {view : Option ProjectView} {s : Scene} {a : Action} {r : ρ}
    (h : .report r ∈ (act wrap code view s a).effects) : ∃ report, r = wrap report := by
  unfold act at h
  dsimp only at h
  split at h
  · exact nomatch h
  · cases hverb : a.verb <;> rw [hverb] at h
    case report =>
      obtain rfl := Effect.report.inj (List.mem_singleton.1 h)
      exact ⟨_, rfl⟩
    case probe =>
      cases view with
      | some v =>
        obtain ⟨line, -, heq⟩ := List.mem_map.1 h
        exact nomatch heq
      | none => exact nomatch h
    case cancel => exact nomatch List.mem_singleton.1 h
    case trace => exact nomatch List.mem_singleton.1 h
    case crash => exact nomatch h
    case nothing => exact nomatch h

/-- **Checks given as data keep to the project**: the paths that they name are looked up in it. -/
theorem keepsToProject_check (s : Script) : s.check.KeepsToProject := by
  intro react hreact past view r hr f hf
  obtain rfl := Option.some.inj hreact
  obtain ⟨reaction, hreaction, hr⟩ := mem_effects_inOrder hr
  obtain ⟨a, -, rfl⟩ := List.mem_map.1 hreaction
  obtain ⟨report, rfl⟩ := exists_of_report_mem_act hr
  dsimp only at hf
  split at hf
  · exact nomatch hf
  · exact .inl (List.mem_of_find?_eq_some hf)

end Script

/-! ## Where the offenses of a run stand -/

namespace Analyzer

/-- The lines of the file that a snapshot has at a path; none where it cannot be read. -/
def linesAt (s : Snapshot) (path : Text) : List Span :=
  match parseOne s path with
  | .ok p => p.file.lines
  | .error _ => []

/-- The offense stands in the file that a snapshot has at its path. -/
def StandsIn (s : Snapshot) (o : Offense) : Prop := o.StandsIn (linesAt s o.path)

section Standing

variable {s : Snapshot}

/-- Every file has a start, also one that cannot be read. -/
theorem start_linesAt (s : Snapshot) (path : Text) : ({} : Position).In (linesAt s path) := by
  unfold linesAt
  cases hparse : parseOne s path with
  | error f => exact .start_nil
  | ok p =>
    obtain ⟨content, hfile, -⟩ := exists_of_parseOne hparse
    dsimp only
    rw [hfile]
    exact .start_lineTable _

theorem standsIn_of_start {o : Offense} (hstart : o.start = {}) (hstop : o.stop = {}) :
    StandsIn s o := by
  unfold StandsIn Offense.StandsIn
  rw [hstart, hstop]
  exact ⟨start_linesAt s o.path, start_linesAt s o.path⟩

/-- The file is what the snapshot has at its path. -/
def IsRead (s : Snapshot) (f : SourceFile) : Prop := f.lines = linesAt s f.path

theorem isRead_of_mem_readable {paths : List Text} {p : ParsedFile} (hp : p ∈ readable s paths) :
    IsRead s p.file := by
  obtain ⟨path, -, hparse⟩ := mem_readable.1 hp
  unfold IsRead linesAt
  rw [path_of_parseOne hparse, hparse]

/-- **A report on a file that was read** raises an offense in it. -/
theorem standsIn_raise? {o : AnalyzerOptions} {parsed : List ParsedFile} {info : CheckInfo}
    {f : SourceFile} {r : Report} {offense : Offense} {fix : Option PendingFix} (hf : IsRead s f)
    (h : raise? o parsed info f r = some (offense, fix)) : StandsIn s offense := by
  unfold raise? at h
  dsimp only at h
  split at h
  · exact nomatch h
  · obtain ⟨rfl, -⟩ := Prod.mk.inj (Option.some.inj h)
    unfold StandsIn
    dsimp only
    rw [← show f.lines = linesAt s f.path from hf]
    exact ⟨.position f _, .position f _⟩

/-- **The breakdown of a check** stands at the node, or at the start of the file. -/
theorem standsIn_breakdown {code : Text} {f : SourceFile} {node : Option Node} {detail : Text}
    (hf : IsRead s f) : StandsIn s (breakdown code (some f) node detail) := by
  cases node with
  | none => exact standsIn_of_start rfl rfl
  | some n =>
    show Offense.StandsIn _ (linesAt s f.path)
    rw [← show f.lines = linesAt s f.path from hf]
    exact ⟨.position f _, .position f _⟩

theorem standsIn_readFailures {paths : List Text} {o : Offense} (h : o ∈ readFailures s paths) :
    StandsIn s o := by
  obtain ⟨path, -, ho⟩ := List.mem_filterMap.1 h
  cases hread : parseOne s path with
  | ok p =>
    rw [hread] at ho
    exact nomatch ho
  | error f =>
    rw [hread] at ho
    obtain rfl := Option.some.inj ho
    exact standsIn_of_start rfl rfl

/-- **What checks raise across files that were read** stands in them. -/
theorem standsIn_raisedAcross (o : AnalyzerOptions) (parsed : List ParsedFile)
    {files : List SourceFile} (hfiles : ∀ f ∈ files, IsRead s f) (slots : List Slot) :
    ∀ offense ∈ (raisedAcross o parsed files slots).offenses, StandsIn s offense := by
  refine raisedAcross_induction o parsed (Tally.additive_offenses _) (fun f hf slots => ?_) slots
  refine raisedIn_induction o parsed f (Tally.additive_offenses _) fun _ _ _ _ _ _ _ => ?_
  exact Tally.offenses_react (fun _ _ _ hraised => standsIn_raise? (hfiles f hf) hraised)
    fun _ => standsIn_breakdown (hfiles f hf)

/-- **What a check raises on the project** stands in files that were read, or in none. -/
theorem standsIn_raisedOn {o : AnalyzerOptions} {parsed : List ParsedFile} {view : ProjectView}
    {slot : Slot} (hk : slot.check.KeepsToProject)
    (hread : ∀ f, (f ∈ view.files ∨ ∃ v ∈ slot.past, v.file = f) → IsRead s f) :
    ∀ offense ∈ (slot.raisedOn o parsed view).offenses, StandsIn s offense := by
  unfold Slot.raisedOn
  cases hproject : slot.check.onProject with
  | none => exact fun _ hnone => absurd hnone List.not_mem_nil
  | some react =>
    refine (Tally.additive_offenses _).react (fun e he => ?_) fun detail _ offense hoffense => ?_
    · cases e with
      | report r =>
        unfold Tally.effect
        dsimp only
        cases hraised : raiseReport? o parsed slot.check.info r with
        | none => exact fun _ hnone => absurd hnone List.not_mem_nil
        | some raised =>
          intro offense hoffense
          obtain rfl := List.mem_singleton.1 hoffense
          unfold raiseReport? at hraised
          cases hfile : r.file with
          | some f =>
            rw [hfile] at hraised
            exact standsIn_raise? (hread f (hk react hproject _ _ r he f hfile)) hraised
          | none =>
            rw [hfile] at hraised
            obtain ⟨offense', hoffense', rfl⟩ := Option.map_eq_some_iff.1 hraised
            unfold raiseProject? at hoffense'
            split at hoffense'
            · exact nomatch hoffense'
            · obtain rfl := Option.some.inj hoffense'
              exact standsIn_of_start rfl rfl
      | trace => exact fun _ hnone => absurd hnone List.not_mem_nil
      | cancel => exact fun _ hnone => absurd hnone List.not_mem_nil
    · obtain rfl := List.mem_singleton.1 hoffense
      exact standsIn_of_start rfl rfl

end Standing

/-- What the analyzer has raised stands in the files of its snapshot.  What it has of the project comes from
checks, which may report on files of their own making unless they keep to the project. -/
structure Sited (a : Analyzer) : Prop where
  single : ∀ o ∈ a.findings.single, StandsIn a.snapshot o
  project : a.KeepsToProject → ∀ o ∈ a.findings.project, StandsIn a.snapshot o

namespace Sited

variable {a : Analyzer}

/-- The files that a run visits were read. -/
theorem isRead_of_mem_files {paths toParse : List Text} {f : SourceFile}
    (hf : f ∈ a.files paths toParse) : IsRead a.snapshot f := by
  obtain ⟨path, -, hfind⟩ := List.mem_filterMap.1 hf
  obtain ⟨p, hp, rfl⟩ := Option.map_eq_some_iff.1 hfind
  exact isRead_of_mem_readable (List.mem_of_find?_eq_some hp)

/-- The files that a check is shown, or was called for on the way, were read. -/
theorem isRead_of_shown {paths toParse : List Text} {slot : Slot}
    (hslot : slot ∈ a.slotsAfter paths toParse) {f : SourceFile}
    (hf : f ∈ (a.view toParse).files ∨ ∃ v ∈ slot.past, v.file = f) : IsRead a.snapshot f := by
  rcases hf with hshown | ⟨v, hv, rfl⟩
  · obtain ⟨p, hp, rfl⟩ := List.mem_map.1 hshown
    exact isRead_of_mem_readable hp
  · obtain ⟨fresh, hfresh, rfl⟩ := List.mem_map.1 hslot
    obtain ⟨k, -, rfl⟩ := List.mem_map.1 hfresh
    rcases Slot.past_visitedAll hv with hnone | ⟨f, hf, m, hm, rfl, -⟩
    · exact nomatch hnone
    · rw [file_of_mem_moments hm]
      exact isRead_of_mem_files hf

/-- **What an analysis raises** stands in the files of the snapshot. -/
theorem analyze (h : a.Sited) (around : Surroundings) (paths toParse : List Text)
    (onlySingle : Bool) : (a.analyze around paths toParse onlySingle).analyzer.Sited := by
  rcases analyze_leaves around paths toParse onlySingle with
    hsame | hsame | ⟨visited, versions, called, projectPass, -, hcalled, hafter⟩
  · rw [hsame]
    exact h
  · rw [hsame]
    exact ⟨h.single, h.project⟩
  · rw [hafter]
    refine ⟨fun o ho => ?_, fun hkeeps o ho => ?_⟩
    · rcases List.mem_append.1 ho with ho | ho
      · exact standsIn_readFailures ho
      · exact standsIn_raisedAcross _ _ (fun f hf => isRead_of_mem_files hf) _ o ho
    · dsimp only at ho
      rw [Tally.offenses_join, List.flatMap_map] at ho
      obtain ⟨slot, hslot, ho⟩ := List.mem_flatMap.1 ho
      have hcheck := hkeeps _ (check_mem_of_slotsAfter visited toParse (hcalled hslot))
      exact standsIn_raisedOn hcheck (fun f hf => isRead_of_shown (hcalled hslot) hf) o ho

/-- **What a call raises** stands in the files of the snapshot. -/
theorem serve (h : a.Sited) (r : Request) : (a.serve r).2.Sited := by
  cases r with
  | analyzeProject around => exact h.analyze around _ _ _
  | analyzeFiles around paths onlySingle => exact h.analyze around _ _ _
  | correct around =>
    unfold Analyzer.serve Analyzer.correct
    dsimp only
    repeat' split
    all_goals exact ⟨h.single, h.project⟩
  | write around store =>
    unfold Analyzer.serve writeCorrections
    dsimp only
    repeat' split
    all_goals exact ⟨h.single, h.project⟩
  | result => exact h

/-- What calls raise, one after the other, stands in the files of the snapshot. -/
theorem after (h : a.Sited) (hkeeps : a.KeepsToProject) (requests : List Request) :
    ∀ o ∈ (a.after requests).findings.raised, StandsIn a.snapshot o := by
  induction requests generalizing a with
  | nil =>
    intro o ho
    exact (List.mem_append.1 ho).elim (h.single o) (h.project hkeeps o)
  | cons r rest ih =>
    obtain ⟨hsnapshot, hchecks, -⟩ := kept_of_serve a r
    have hkeeps' : (a.serve r).2.KeepsToProject := by
      unfold Analyzer.KeepsToProject
      rw [hchecks]
      exact hkeeps
    have hrest := ih (h.serve r) hkeeps'
    rwa [hsnapshot] at hrest

end Sited

/-- **The offenses of a run have one order.**  Take any offenses that were raised by the calls to one
analyzer, with severities that have a rank of their own.  The order of offenses is a total order on them, in
which only equal ones stand at the same place.  So there is one way to arrange them, and findings that hold
them hand them out in this arrangement, in whatever order they were raised. -/
theorem totallyOrdered_raised (snapshot : Snapshot) (checks : List Check) (options : AnalyzerOptions)
    (runId : Text) (hkeeps : ∀ k ∈ checks, k.KeepsToProject) (requests : List Request)
    (os : List Offense)
    (hraised : ∀ o ∈ os, o ∈
      (({ snapshot, checks, options, runId } : Analyzer).after requests).findings.raised)
    (hknown : ∀ o ∈ os, o.severity ∈ Severity.known) :
    Offense.TotallyOrdered os ∧
      (∀ arranged : List Offense, arranged.Perm os →
        (arranged.Pairwise fun a b => Offense.le a b = true) → arranged = Offense.sort os) ∧
      ∀ f : Findings, f.raised.Perm os → f.offenses = Offense.sort os := by
  have hnew : ({ snapshot, checks, options, runId } : Analyzer).Sited :=
    ⟨fun _ hnone => absurd hnone List.not_mem_nil, fun _ _ hnone => absurd hnone List.not_mem_nil⟩
  have hstands : ∀ o ∈ os, StandsIn snapshot o :=
    fun o ho => hnew.after hkeeps requests o (hraised o ho)
  have htotal : Offense.TotallyOrdered os := by
    refine .of_eq fun a ha b hb h => ?_
    have hpath : a.path = b.path := ((Offense.order_eq_iff a b).1 h).1
    have hstandsB : b.StandsIn (linesAt snapshot a.path) := hpath ▸ hstands b hb
    exact Offense.eq_of_order_eq (hstands a ha) hstandsB (hknown a ha) (hknown b hb) h
  refine ⟨htotal, fun arranged hperm hsorted => htotal.eq_sort hperm hsorted, fun f hperm => ?_⟩
  exact htotal.eq_sort ((List.mergeSort_perm _ _).trans hperm)
    (List.pairwise_mergeSort Offense.le_trans Offense.le_total _)

/-- A check that reports each query at its second line and at its first, and then breaks down.  Of the
project it reports the second query, and the project itself. -/
def countsQueries : Check :=
  Script.check
    { info := { code := "Counts", severity := .suggestion, categories := [.graphql] }
      onEnd :=
        [{ verb := .report, message := "counted", range := some ⟨3, 4⟩ },
          { verb := .report, message := "counted", range := some ⟨0, 2⟩ },
          { verb := .report, message := "counted", range := some ⟨0, 1⟩, severity := some .style },
          { verb := .crash, message := "lost count" }]
      onProject := [{ verb := .report, path := "b.graphql" }, { verb := .report }] }

/-- The analysis of three queries, the last of which cannot be read. -/
def countedQueries : Findings :=
  (({ snapshot := ⟨⟨[("a.graphql", { content := .loaded "ab\ncd" }),
        ("b.graphql", { content := .loaded "ef\ngh" }),
        ("c.graphql", { content := .failed (.plain "locked") })]⟩⟩
      checks := [countsQueries]
      options := {}
      runId := [] } : Analyzer).after [.analyzeProject {}]).findings

/-- The offenses of three queries and of their project come out the same when they are raised in reverse. -/
theorem totallyOrdered_counted :
    countedQueries.raised.map (fun o => (o.path, o.start.line, o.stop.offset)) =
        ([("c.graphql", 0, 0), ("a.graphql", 1, 4), ("a.graphql", 0, 2), ("a.graphql", 0, 1),
          ("a.graphql", 0, 0), ("b.graphql", 1, 4), ("b.graphql", 0, 2), ("b.graphql", 0, 1),
          ("b.graphql", 0, 0), ("b.graphql", 0, 0), (".", 0, 0)] : List (Text × Int × Int)) ∧
      (∀ o ∈ countedQueries.raised, o.severity ∈ Severity.known) ∧
      Offense.TotallyOrdered countedQueries.raised ∧
      ({ single := countedQueries.raised.reverse } : Findings).offenses =
        Offense.sort countedQueries.raised := by
  have hkeeps : ∀ k ∈ [countsQueries], k.KeepsToProject :=
    List.forall_mem_singleton.2 (Script.keepsToProject_check _)
  have hknown : ∀ o ∈ countedQueries.raised, o.severity ∈ Severity.known := by decide +kernel
  obtain ⟨htotal, -, hfindings⟩ := totallyOrdered_raised _ _ _ _ hkeeps _ countedQueries.raised
    (fun _ ho => ho) hknown
  have hreversed (os : List Offense) : ({ single := os.reverse } : Findings).raised.Perm os := by
    show (os.reverse ++ []).Perm os
    rw [List.append_nil]
    exact List.reverse_perm os
  exact ⟨by decide +kernel, hknown, htotal, hfindings _ (hreversed _)⟩

end Analyzer
end LiquidLint
