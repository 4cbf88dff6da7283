import LiquidLint.Proofs.FileVisits
import LiquidLint.Proofs.TreeFirings

/-!
# Which events a check is called for, and how often

The moments of a visit are those of what the trees of the file fire, and its end (`moments_eq`).  A check is
called for the firings that it listens to, until it breaks down (`Slot.heard`).  So what holds of a walk over
trees holds of the calls: an event of a node calls a check once, events come in the order of the tree, and a
check that waits for every node is called for all of them (`Calls`, `visit_calls`).

The exception is a tag that is named `node` or `tag`: its own event is one that it fires already, and a
check that waits for this event is called twice (`node_tag_twice`).
-/

namespace LiquidLint

namespace Analysis

open Source

variable (f : SourceFile)

/-! ## What a file fires -/

/-- The nodes of a file in document order, with their places. -/
def nodesAt : List (Place × Node) := Node.walkBelow [] 0 f.trees

/-- Everything that a file fires. -/
def firings : List Firing := Node.firingsBelow [] 0 f.trees

/-- The category of the checks that walk the tree of a place. -/
def categoryAt (p : Place) : Project.Category :=
  match p.head?.bind (f.trees[·]?) with
  | some tree => Check.treeCategory f tree
  | none => f.info.category

/-- What checks are called for when the event fires. -/
def visitOf (g : Firing) : Visit := .node f g.event g.node

/-- The moment when the event fires. -/
def momentOf (g : Firing) : Moment :=
  ⟨some g.node, visitOf f g, fun k => k.listensTo (categoryAt f g.place) g.event⟩

/-- The end of the file. -/
def ending : Moment := ⟨none, .endFile f, fun k => k.info.appliesTo f.info.category⟩

/-- **The moments of a visit are those of what the file fires**, and its end. -/
theorem moments_eq : moments f = (firings f).map (momentOf f) ++ [ending f] := by
  -- the trees are numbered from `done.length` on
  have htrees (rest done : List Node) (h : f.trees = done ++ rest) :
      (Node.firingsBelow [] done.length rest).map (momentOf f) = rest.flatMap (treeMoments f) := by
    induction rest generalizing done with
    | nil => rw [Node.firingsBelow]; rfl
    | cons tree rest ih =>
      have hcategory {g : Firing} (hg : g ∈ Node.firingsAt [done.length] tree) :
          categoryAt f g.place = Check.treeCategory f tree := by
        obtain ⟨below, hbelow⟩ := Node.place_walkAt _ tree _ (Node.source_firingsAt hg)
        have hplace : g.place = done.length :: below := hbelow.symm
        rw [categoryAt, hplace, h]
        simp
      have htree : (Node.firingsAt [done.length] tree).map (momentOf f) = treeMoments f tree := by
        rw [treeMoments, ← Node.fired_firingsAt [done.length] tree, List.map_map]
        refine List.map_congr_left fun g hg => ?_
        rw [momentOf, hcategory hg]
        rfl
      have hrest := ih (done ++ [tree]) (by rw [h, List.append_assoc, List.singleton_append])
      rw [List.length_append, List.length_singleton] at hrest
      rw [Node.firingsBelow, List.map_append, List.flatMap_cons, hrest, List.nil_append, htree]
  rw [moments, ← htrees f.trees [] rfl]
  rfl

/-! ## What a check hears -/

namespace Slot

variable {f}

/-- The firings that the check is called for. -/
def heard (f : SourceFile) : List Firing → Slot → List Firing
  | [], _ => []
  | g :: rest, s =>
    ((s.reaction? (momentOf f g)).map fun _ => g).toList ++ heard f rest (s.after (momentOf f g))

theorem heard_sublist (gs : List Firing) (s : Slot) : (s.heard f gs).Sublist gs := by
  induction gs generalizing s with
  | nil => exact .slnil
  | cons g rest ih =>
    rw [heard]
    cases s.reaction? (momentOf f g) with
    | none => exact (ih _).cons g
    | some r => exact (ih _).cons_cons g

/-- A check is called as often as it hears something. -/
theorem past_heard (gs : List Firing) (s : Slot) :
    ((gs.map (momentOf f)).foldl after s).past = ((s.heard f gs).map (visitOf f)).reverse ++ s.past := by
  induction gs generalizing s with
  | nil => rfl
  | cons g rest ih =>
    rw [List.map_cons, List.foldl_cons, ih, heard, after]
    cases s.reaction? (momentOf f g) with
    | none => rfl
    | some r =>
      dsimp only
      rw [Option.map_some, Option.toList_some, List.singleton_append, List.map_cons, List.reverse_cons,
        List.append_assoc, List.singleton_append]
      rfl

/-- A check hears what it listens to. -/
theorem listensTo_of_heard {gs : List Firing} {s : Slot} {g : Firing} (hg : g ∈ s.heard f gs) :
    s.check.listensTo (categoryAt f g.place) g.event = true := by
  induction gs generalizing s with
  | nil => exact nomatch hg
  | cons g' rest ih =>
    rw [heard] at hg
    rcases List.mem_append.1 hg with hg | hg
    · obtain ⟨r, hr, rfl⟩ := Option.map_eq_some_iff.1 (Option.mem_toList.1 hg)
      unfold reaction? at hr
      split at hr
      · exact (Bool.and_eq_true_iff.1 ‹_›).1
      · exact nomatch hr
    · exact check_after s (momentOf f g') ▸ ih hg

theorem failed_foldl_after {s : Slot} (hs : s.failed = true) (ms : List Moment) :
    (ms.foldl after s).failed = true := by
  induction ms with
  | nil => exact hs
  | cons m rest ih =>
    have hafter : s.after m = s := by
      unfold after reaction?
      rw [hs, Bool.not_true, Bool.and_false]
      rfl
    rw [List.foldl_cons, hafter]
    exact ih

/-- **A check that did not break down heard everything that it listens to.** -/
theorem heard_of_not_failed (gs : List Firing) (s : Slot)
    (hgs : ((gs.map (momentOf f)).foldl after s).failed = false) :
    s.heard f gs = gs.filter fun g => s.check.listensTo (categoryAt f g.place) g.event := by
  induction gs generalizing s with
  | nil => rfl
  | cons g rest ih =>
    rw [List.map_cons, List.foldl_cons] at hgs
    have hrest := ih _ hgs
    rw [check_after] at hrest
    rw [heard, hrest]
    cases hs : s.failed with
    | true =>
      -- the check would have stayed broken down
      have hafter : (s.after (momentOf f g)).failed = true := failed_foldl_after hs [momentOf f g]
      rw [failed_foldl_after hafter] at hgs
      exact nomatch hgs
    | false =>
      unfold reaction?
      rw [hs, Bool.not_false, Bool.and_true, List.filter_cons]
      change (Option.map _ (if s.check.listensTo (categoryAt f g.place) g.event = true then _ else _)).toList ++
        _ = _
      split <;> rfl

/-- The slot when the trees of a file have been walked. -/
def walked (f : SourceFile) (s : Slot) : Slot := ((firings f).map (momentOf f)).foldl after s.fresh

/-- What the check is called for while the trees of a file are walked. -/
def calls (f : SourceFile) (s : Slot) : List Firing := s.fresh.heard f (firings f)

end Slot

/-! ## The calls of a visit -/

/-- The event before the children of any node. -/
def onNode : Event := ⟨.on, "node"⟩

/-- What a check is called for while the trees of a file are walked. -/
structure Calls (f : SourceFile) (s : Slot) (calls : List Firing) : Prop where
  made : (s.walked f).past = (calls.map (visitOf f)).reverse ++ s.past
  fired : calls.Sublist (firings f)
  awaited : ∀ g ∈ calls,
    g.source ∈ nodesAt f ∧ s.check.listensTo (categoryAt f g.place) g.event = true
  /-- An event of a node calls the check once, or twice if it is the node's own event as well. -/
  bounded : ∀ q ∈ nodesAt f, ∀ e,
    calls.countP (fun g => g.place = q.1 ∧ g.event = e) ≤ q.2.timesFired e.kind
  /-- A check that waits for every node and does not break down is called for all of them, in document
  order. -/
  complete : s.check.subscriptions.contains onNode = true → (s.walked f).failed = false →
    (calls.filter (·.event = onNode)).map Firing.source =
      ((nodesAt f).filter fun q => s.check.info.categories.contains (categoryAt f q.1)).flatMap
        fun q => List.replicate (q.2.timesFired "node") q

theorem countP_calls_le (s : Slot) {q : Place × Node} (hq : q ∈ nodesAt f) (e : Event) :
    (s.calls f).countP (fun g => g.place = q.1 ∧ g.event = e) ≤ q.2.timesFired e.kind :=
  calc (s.calls f).countP (fun g => g.place = q.1 ∧ g.event = e)
    _ ≤ (firings f).countP (fun g => g.place = q.1 ∧ g.event = e) :=
      (s.fresh.heard_sublist (firings f)).countP_le
    _ = ((nodesAt f).flatMap Node.fired).countP (fun g => g.place = q.1 ∧ g.event = e) :=
      (Node.firingsBelow_perm [] 0 f.trees).countP_eq _
    _ = q.2.eventKinds.count e.kind := Node.countP_firings (Node.nodup_walkBelow [] 0 f.trees) hq e
    _ ≤ q.2.timesFired e.kind := by
      rw [Node.count_eventKinds]
      split
      · exact Nat.le_refl _
      · exact Nat.zero_le _

/-- **A check that did not break down was called for the nodes in document order**, for each as often as
it fires the event. -/
theorem on_calls {s : Slot} {kind : Text}
    (hsubscribed : s.check.subscriptions.contains ⟨.on, kind⟩ = true)
    (hwalked : (s.walked f).failed = false) :
    ((s.calls f).filter (·.event = ⟨.on, kind⟩)).map Firing.source =
      ((nodesAt f).filter fun q => s.check.info.categories.contains (categoryAt f q.1)).flatMap
        fun q => List.replicate (q.2.eventKinds.count kind) q := by
  let waits (p : Place) : Bool := s.check.info.categories.contains (categoryAt f p)
  have hon : (firings f).filter (·.event.phase = .on) = (nodesAt f).flatMap (Node.firedAt .on) :=
    Node.on_firingsBelow [] 0 f.trees
  -- the check heard all that it listens to, and of that we keep one event before the children
  have hcalls : (s.calls f).filter (·.event = ⟨.on, kind⟩) =
      (((nodesAt f).flatMap (Node.firedAt .on)).filter (waits ·.place)).filter
        (·.event = ⟨.on, kind⟩) := by
    rw [← hon, Slot.calls, Slot.heard_of_not_failed _ _ hwalked, List.filter_filter,
      List.filter_filter, List.filter_filter]
    refine List.filter_congr fun g _ => ?_
    by_cases hg : g.event = ⟨.on, kind⟩
    · have hlistens : s.check.listensTo (categoryAt f g.place) g.event = waits g.place := by
        rw [hg, Check.listensTo, hsubscribed, Bool.and_true]
      rw [hg] at hlistens ⊢
      rw [← hlistens]
      simp [Slot.fresh]
    · simp [hg]
  have hnodes (nodes : List (Place × Node)) :
      (((nodes.flatMap (Node.firedAt .on)).filter (waits ·.place)).filter (·.event = ⟨.on, kind⟩)).map
        Firing.source =
      (nodes.filter (waits ·.1)).flatMap fun q => List.replicate (q.2.eventKinds.count kind) q := by
    induction nodes with
    | nil => rfl
    | cons q rest ih =>
      have hplace {g : Firing} (hg : g ∈ Node.firedAt .on q) : g.place = q.1 :=
        congrArg (·.1) (Node.mem_firedAt hg).1
      rw [List.flatMap_cons, List.filter_append, List.filter_append, List.map_append, ih,
        List.filter_cons]
      cases hq : waits q.1 with
      | true =>
        have hall : (Node.firedAt .on q).filter (waits ·.place) = Node.firedAt .on q :=
          List.filter_eq_self.2 fun g hg => by rw [hplace hg, hq]
        rw [hall, Node.on_fired, if_pos rfl, List.flatMap_cons]
      | false =>
        have hnone : (Node.firedAt .on q).filter (waits ·.place) = [] :=
          List.filter_eq_nil_iff.2 fun g hg => by rw [hplace hg, hq]; exact Bool.false_ne_true
        rw [hnone, if_neg Bool.false_ne_true]
        rfl
  rw [hcalls, hnodes]

/-- **The calls of a visit.**  A visit goes through what the file fires, calls at each firing the checks
that listen to it, and calls for the end of the file last.  What the file fires comes from its nodes, each in
a place of its own, and the events of a node stand around those of its descendants.  So a check is called
for an event of a node at most once, but twice for the event of a tag that is named after it; and if it
waits for every node and does not break down, it is called for the nodes in document order, for each once
unless it is a tag named `node`. -/
theorem visit_calls (o : AnalyzerOptions) (parsed : List ParsedFile) (slots : List Slot) (t : Tally) :
    (visitFile o parsed f slots t =
      callAt o parsed f
        (((firings f).map (momentOf f)).foldl (callAt o parsed f) (slots.map Slot.fresh, t))
        (ending f)) ∧
    (visitFile o parsed f slots t).1 = slots.map (fun s => (s.walked f).after (ending f)) ∧
    (nodesAt f).map (·.2) = f.nodes ∧ ((nodesAt f).map (·.1)).Nodup ∧
    (firings f).Pairwise Firing.InOrder ∧
    ∀ s ∈ slots, Calls f s (s.calls f) := by
  have hvisit : visitFile o parsed f slots t =
      (moments f).foldl (callAt o parsed f) (slots.map Slot.fresh, t) := by
    rw [visitFile_eq, foldl_callAt, List.map_map]
    rfl
  refine ⟨?_, ?_, ?_, Node.nodup_walkBelow [] 0 f.trees, Node.inOrder_firingsBelow [] 0 f.trees,
    fun s _ => ?_⟩
  · rw [hvisit, moments_eq, List.foldl_append]
    rfl
  · rw [visitFile_eq]
    refine List.map_congr_left fun s _ => ?_
    rw [Slot.visited, moments_eq, List.foldl_append]
    rfl
  · have hwalk (trees : List Node) : Node.walkAll trees = trees.flatMap Node.walk := by
      induction trees with
      | nil => rw [Node.walkAll, List.flatMap_nil]
      | cons tree rest ih => rw [Node.walkAll, ih, List.flatMap_cons]
    rw [nodesAt, Node.node_walkBelow, hwalk, SourceFile.nodes]
  · exact {
      made := Slot.past_heard (firings f) s.fresh
      fired := s.fresh.heard_sublist (firings f)
      awaited := fun g hg => ⟨Node.source_firingsBelow ((s.fresh.heard_sublist (firings f)).subset hg),
        Slot.listensTo_of_heard (s := s.fresh) hg⟩
      bounded := fun q hq e => countP_calls_le f s hq e
      complete := fun hsubscribed hwalked => by
        have htimes (q : Place × Node) : q.2.eventKinds.count ("node" : Text) = q.2.timesFired "node" := by
          rw [Node.count_eventKinds]
          exact if_pos (List.mem_cons_self ..)
        have hcalls := on_calls f hsubscribed hwalked
        simp only [htimes] at hcalls
        exact hcalls }

/-- A check that waits for every node of a template. -/
def nodeWatcher : Check :=
  { info := { code := "NodeWatcher", severity := .style, categories := [.liquid] }
    subscriptions := [onNode] }

/-- In a template with a branch, it is called for the document, the branch and what the branch holds. -/
theorem visit_calls_branch :
    let f := SourceFile.parse "a.liquid" "\x7b% if a %\x7d\x7b\x7b b \x7d\x7d\x7b% endif %\x7d" 0
    (Slot.walked f { check := nodeWatcher }).failed = false ∧
      ((Slot.calls f { check := nodeWatcher }).filter (·.event = onNode)).map
          (fun g => (g.place, g.node.kind)) =
        ([([0], "document"), ([0, 0], "if"), ([0, 0, 0], "variable")] : List (Place × Text)) := by
  intro f
  have hlive : (Slot.walked f { check := nodeWatcher }).failed = false := by decide +kernel
  obtain ⟨-, -, -, -, -, hcalls⟩ := visit_calls f {} [] [{ check := nodeWatcher }] {}
  have hcomplete := (hcalls _ (List.mem_singleton_self _)).complete (by decide) hlive
  have hsources := congrArg (List.map fun q => (q.1, q.2.kind)) hcomplete
  rw [List.map_map] at hsources
  refine ⟨hlive, hsources.trans ?_⟩
  decide +kernel

/-- A template whose only tag is named `node`. -/
def nodePage : SourceFile := SourceFile.parse "a.liquid" "\x7b% node %\x7d" 0

/-- **A tag that is named `node` calls it twice.** -/
theorem node_tag_twice :
    (Slot.walked nodePage { check := nodeWatcher }).failed = false ∧
      (Slot.calls nodePage { check := nodeWatcher }).map (fun g => (g.place, g.event, g.node.kind)) =
        ([([0], onNode, "document"), ([0, 0], onNode, "node"), ([0, 0], onNode, "node")] :
          List (Place × Event × Text)) ∧
      ∃ q ∈ nodesAt nodePage, 1 < (Slot.calls nodePage { check := nodeWatcher }).countP
        (fun g => g.place = q.1 ∧ g.event = onNode) :=
  by decide +kernel

end Analysis

end LiquidLint
