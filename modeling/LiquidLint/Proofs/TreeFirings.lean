import LiquidLint.Source.Node

/-!
# What a walk over a tree fires

Each node of a tree fires its events: those of the phase before its children, then what the children fire,
then those of the other phase.  To tell nodes apart that look alike, they are taken with their places in the
trees (`Node.walkAt`), and what they fire with the places as well (`Node.firingsAt`).

A walk fires the events of every node that it comes by (`firingsAt_perm`), those of a node around those of
its descendants (`inOrder_firingsAt`), and the events before the children in document order
(`on_firingsAt`).  A node fires under each of its kinds once.  But a Liquid tag has the name that the source
gives it for a kind, and where that is `node` or `tag`, it fires under this kind a second time
(`count_eventKinds`).
-/

namespace LiquidLint

namespace Source

/-! ## Places in a tree -/

/-- A place in the trees of a file: the number of a tree, and then of a child at each step down. -/
abbrev Place := List Nat

/-- The first place is that of an ancestor of the node at the second. -/
def Above (p q : Place) : Prop := p <+: q ∧ p ≠ q

/-- Neither of the places is in the tree below the other. -/
def Aside (p q : Place) : Prop := ¬ p <+: q ∧ ¬ q <+: p

theorem above_of_child {p q : Place} {j : Nat} (h : p ++ [j] <+: q) : Above p q := by
  refine ⟨(List.prefix_append p [j]).trans h, ?_⟩
  rintro rfl
  have hlength := h.length_le
  rw [List.length_append, List.length_singleton] at hlength
  omega

theorem Above.asymm {p q : Place} (h : Above p q) : ¬ Above q p :=
  fun h' => h.2 (h.1.eq_of_length_le h'.1.length_le)

/-- Places below different children of one place stand aside. -/
theorem aside_of_ne {p q r : Place} {i j : Nat} (hij : i ≠ j) (hq : p ++ [i] <+: q) (hr : p ++ [j] <+: r) :
    Aside q r := by
  have hcut {q r : Place} {i j : Nat} (hij : i ≠ j) (hq : p ++ [i] <+: q) (hr : p ++ [j] <+: r) :
      ¬ q <+: r := by
    intro hqr
    obtain ⟨u, hu⟩ := hq.trans hqr
    obtain ⟨v, hv⟩ := hr
    rw [← hv, List.append_assoc, List.append_assoc] at hu
    exact hij (List.cons.inj (List.append_cancel_left hu)).1
  exact ⟨hcut hij hq hr, hcut hij.symm hr hq⟩

theorem Aside.ne {p q : Place} (h : Aside p q) : p ≠ q := by
  rintro rfl
  exact h.1 (List.prefix_refl p)

namespace Node

mutual

/-- The node at a place and its descendants, in document order and with their places. -/
def walkAt (p : Place) : Node → List (Place × Node)
  | mk s sp cs => (p, mk s sp cs) :: walkBelow p 0 cs

/-- `walkAt` of the children of a place, from child number `i` on. -/
def walkBelow (p : Place) (i : Nat) : List Node → List (Place × Node)
  | [] => []
  | n :: rest => walkAt (p ++ [i]) n ++ walkBelow p (i + 1) rest

end

mutual

/-- The nodes are those of a walk. -/
theorem node_walkAt (p : Place) : (n : Node) → (n.walkAt p).map (·.2) = n.walk
  | mk s sp cs => by
    rw [walkAt, walk, List.map_cons, node_walkBelow p 0 cs]

theorem node_walkBelow (p : Place) (i : Nat) : (ns : List Node) → (walkBelow p i ns).map (·.2) = walkAll ns
  | [] => by
    rw [walkBelow, walkAll]
    rfl
  | n :: rest => by
    rw [walkBelow, walkAll, List.map_append, node_walkAt (p ++ [i]) n, node_walkBelow p (i + 1) rest]

end

mutual

theorem place_walkAt (p : Place) : (n : Node) → ∀ q ∈ n.walkAt p, p <+: q.1
  | mk s sp cs => by
    intro q hq
    rw [walkAt] at hq
    rcases List.mem_cons.1 hq with rfl | hq
    · exact List.prefix_refl p
    · obtain ⟨j, -, hj⟩ := place_walkBelow p 0 cs q hq
      exact (List.prefix_append p [j]).trans hj

theorem place_walkBelow (p : Place) (i : Nat) :
    (ns : List Node) → ∀ q ∈ walkBelow p i ns, ∃ j, i ≤ j ∧ p ++ [j] <+: q.1
  | [] => by
    intro q hq
    rw [walkBelow] at hq
    exact nomatch hq
  | n :: rest => by
    intro q hq
    rw [walkBelow] at hq
    rcases List.mem_append.1 hq with hq | hq
    · exact ⟨i, Nat.le_refl i, place_walkAt (p ++ [i]) n q hq⟩
    · obtain ⟨j, hij, hj⟩ := place_walkBelow p (i + 1) rest q hq
      exact ⟨j, by omega, hj⟩

end

mutual

/-- **Each node of a walk has a place of its own.** -/
theorem nodup_walkAt (p : Place) : (n : Node) → ((n.walkAt p).map (·.1)).Nodup
  | mk s sp cs => by
    rw [walkAt, List.map_cons, List.nodup_cons]
    refine ⟨fun hmem => ?_, nodup_walkBelow p 0 cs⟩
    obtain ⟨q, hq, hpq⟩ := List.mem_map.1 hmem
    obtain ⟨j, -, hj⟩ := place_walkBelow p 0 cs q hq
    exact (above_of_child hj).2 hpq.symm

theorem nodup_walkBelow (p : Place) (i : Nat) : (ns : List Node) → ((walkBelow p i ns).map (·.1)).Nodup
  | [] => by
    rw [walkBelow]
    exact List.nodup_nil
  | n :: rest => by
    rw [walkBelow, List.map_append, List.nodup_append]
    refine ⟨nodup_walkAt (p ++ [i]) n, nodup_walkBelow p (i + 1) rest, fun q hq r hr => ?_⟩
    obtain ⟨q', hq', rfl⟩ := List.mem_map.1 hq
    obtain ⟨r', hr', rfl⟩ := List.mem_map.1 hr
    obtain ⟨j, hij, hj⟩ := place_walkBelow p (i + 1) rest r' hr'
    exact (aside_of_ne (by omega) (place_walkAt (p ++ [i]) n q' hq') hj).ne

end

end Node

/-! ## What a tree fires -/

/-- An event of the node at a place. -/
structure Firing where
  place : Place
  event : Event
  node : Node

namespace Firing

/-- The node that fired, with its place. -/
def source (g : Firing) : Place × Node := (g.place, g.node)

/-- Of two firings in this order, what comes from further up in a tree is an event of the phase before
the children if it is the first, and of the phase after them if it is the second. -/
def InOrder (g h : Firing) : Prop :=
  (Above g.place h.place → g.event.phase = .on) ∧ (Above h.place g.place → h.event.phase = .after)

theorem inOrder_of_aside {g h : Firing} (hgh : Aside g.place h.place) : InOrder g h :=
  ⟨fun habove => absurd habove.1 hgh.1, fun habove => absurd habove.1 hgh.2⟩

theorem inOrder_of_eq {g h : Firing} (hgh : g.place = h.place) : InOrder g h :=
  ⟨fun habove => absurd hgh habove.2, fun habove => absurd hgh.symm habove.2⟩

theorem inOrder_of_on {g h : Firing} (hg : g.event.phase = .on) (hgh : Above g.place h.place) :
    InOrder g h :=
  ⟨fun _ => hg, fun habove => absurd habove hgh.asymm⟩

theorem inOrder_of_after {g h : Firing} (hh : h.event.phase = .after) (hgh : Above h.place g.place) :
    InOrder g h :=
  ⟨fun habove => absurd habove hgh.asymm, fun _ => hh⟩

end Firing

namespace Node

/-- What the node at a place fires in one phase. -/
def firedAt (phase : Phase) (q : Place × Node) : List Firing :=
  (q.2.events phase).map (⟨q.1, ·, q.2⟩)

/-- What the node at a place fires in both phases. -/
def fired (q : Place × Node) : List Firing := firedAt .on q ++ firedAt .after q

mutual

/-- Everything that a walk over the tree at a place fires, in order and with places. -/
def firingsAt (p : Place) : Node → List Firing
  | mk s sp cs =>
    firedAt .on (p, mk s sp cs) ++ firingsBelow p 0 cs ++ firedAt .after (p, mk s sp cs)

/-- `firingsAt` of the children of a place, from child number `i` on. -/
def firingsBelow (p : Place) (i : Nat) : List Node → List Firing
  | [] => []
  | n :: rest => firingsAt (p ++ [i]) n ++ firingsBelow p (i + 1) rest

end

theorem mem_firedAt {phase : Phase} {q : Place × Node} {g : Firing} (hg : g ∈ firedAt phase q) :
    g.source = q ∧ g.event.phase = phase := by
  obtain ⟨e, he, rfl⟩ := List.mem_map.1 hg
  refine ⟨rfl, ?_⟩
  cases phase with
  | on =>
    obtain ⟨k, -, rfl⟩ := List.mem_map.1 he
    rfl
  | after =>
    obtain ⟨k, -, rfl⟩ := List.mem_map.1 he
    rfl

theorem source_fired {q : Place × Node} {g : Firing} (hg : g ∈ fired q) : g.source = q := by
  rcases List.mem_append.1 hg with hg | hg
  · exact (mem_firedAt hg).1
  · exact (mem_firedAt hg).1

mutual

/-- The events and nodes are those of a walk. -/
theorem fired_firingsAt (p : Place) :
    (n : Node) → (n.firingsAt p).map (fun g => (g.event, g.node)) = n.firings
  | mk s sp cs => by
    have hfired (phase : Phase) : (firedAt phase (p, mk s sp cs)).map (fun g => (g.event, g.node)) =
        ((mk s sp cs).events phase).map (·, mk s sp cs) := List.map_map
    rw [firingsAt, firings, List.map_append, List.map_append, hfired, hfired, fired_firingsBelow p 0 cs]

theorem fired_firingsBelow (p : Place) (i : Nat) :
    (ns : List Node) → (firingsBelow p i ns).map (fun g => (g.event, g.node)) = firingsAll ns
  | [] => by
    rw [firingsBelow, firingsAll]
    rfl
  | n :: rest => by
    rw [firingsBelow, firingsAll, List.map_append, fired_firingsAt (p ++ [i]) n,
      fired_firingsBelow p (i + 1) rest]

end

mutual

/-- **A walk fires the events of each node**, those of both phases. -/
theorem firingsAt_perm (p : Place) :
    (n : Node) → (n.firingsAt p).Perm ((n.walkAt p).flatMap fired)
  | mk s sp cs => by
    rw [firingsAt, walkAt, List.flatMap_cons, fired, List.append_assoc, List.append_assoc]
    refine .append_left _ (List.perm_append_comm.trans (.append_left _ ?_))
    exact firingsBelow_perm p 0 cs

theorem firingsBelow_perm (p : Place) (i : Nat) :
    (ns : List Node) → (firingsBelow p i ns).Perm ((walkBelow p i ns).flatMap fired)
  | [] => by
    rw [firingsBelow, walkBelow]
    exact .nil
  | n :: rest => by
    rw [firingsBelow, walkBelow, List.flatMap_append]
    exact (firingsAt_perm (p ++ [i]) n).append (firingsBelow_perm p (i + 1) rest)

end

/-- What is fired is fired by a node of the walk. -/
theorem source_firingsAt {p : Place} {n : Node} {g : Firing} (hg : g ∈ n.firingsAt p) :
    g.source ∈ n.walkAt p := by
  obtain ⟨q, hq, hg⟩ := List.mem_flatMap.1 ((firingsAt_perm p n).mem_iff.1 hg)
  exact source_fired hg ▸ hq

theorem source_firingsBelow {p : Place} {i : Nat} {ns : List Node} {g : Firing}
    (hg : g ∈ firingsBelow p i ns) : g.source ∈ walkBelow p i ns := by
  obtain ⟨q, hq, hg⟩ := List.mem_flatMap.1 ((firingsBelow_perm p i ns).mem_iff.1 hg)
  exact source_fired hg ▸ hq

mutual

/-- **The events before the children come in document order.** -/
theorem on_firingsAt (p : Place) :
    (n : Node) → (n.firingsAt p).filter (·.event.phase = .on) = (n.walkAt p).flatMap (firedAt .on)
  | mk s sp cs => by
    have hon : (firedAt .on (p, mk s sp cs)).filter (·.event.phase = .on) =
        firedAt .on (p, mk s sp cs) :=
      List.filter_eq_self.2 fun g hg => decide_eq_true (mem_firedAt hg).2
    have hafter : (firedAt .after (p, mk s sp cs)).filter (·.event.phase = .on) = [] := by
      refine List.filter_eq_nil_iff.2 fun g hg => ?_
      rw [(mem_firedAt hg).2]
      exact of_decide_eq_false rfl
    rw [firingsAt, walkAt, List.flatMap_cons, List.filter_append, List.filter_append, hon, hafter,
      List.append_nil, on_firingsBelow p 0 cs]

theorem on_firingsBelow (p : Place) (i : Nat) :
    (ns : List Node) → (firingsBelow p i ns).filter (·.event.phase = .on) =
      (walkBelow p i ns).flatMap (firedAt .on)
  | [] => by
    rw [firingsBelow, walkBelow]
    rfl
  | n :: rest => by
    rw [firingsBelow, walkBelow, List.flatMap_append, List.filter_append, on_firingsAt (p ++ [i]) n,
      on_firingsBelow p (i + 1) rest]

end

mutual

/-- **The events of a node stand around those of its descendants.** -/
theorem inOrder_firingsAt (p : Place) : (n : Node) → (n.firingsAt p).Pairwise Firing.InOrder
  | mk s sp cs => by
    have hbelow {g : Firing} (hg : g ∈ firingsBelow p 0 cs) : Above p g.place := by
      obtain ⟨j, -, hj⟩ := place_walkBelow p 0 cs _ (source_firingsBelow hg)
      exact above_of_child hj
    have hfired {phase : Phase} {g : Firing} (hg : g ∈ firedAt phase (p, mk s sp cs)) :
        g.place = p ∧ g.event.phase = phase :=
      ⟨congrArg (·.1) (mem_firedAt hg).1, (mem_firedAt hg).2⟩
    have hphase (phase : Phase) : (firedAt phase (p, mk s sp cs)).Pairwise Firing.InOrder :=
      List.pairwise_of_forall_mem_list fun g hg h hh =>
        Firing.inOrder_of_eq ((hfired hg).1.trans (hfired hh).1.symm)
    rw [firingsAt, List.pairwise_append, List.pairwise_append]
    -- the events before the children, what the children fire, and the events after them
    refine ⟨⟨hphase .on, inOrder_firingsBelow p 0 cs, fun g hg h hh => ?_⟩, hphase .after,
      fun g hg h hh => ?_⟩
    · exact Firing.inOrder_of_on (hfired hg).2 ((hfired hg).1 ▸ hbelow hh)
    · rcases List.mem_append.1 hg with hg | hg
      · exact Firing.inOrder_of_eq ((hfired hg).1.trans (hfired hh).1.symm)
      · exact Firing.inOrder_of_after (hfired hh).2 ((hfired hh).1 ▸ hbelow hg)

theorem inOrder_firingsBelow (p : Place) (i : Nat) :
    (ns : List Node) → (firingsBelow p i ns).Pairwise Firing.InOrder
  | [] => by
    rw [firingsBelow]
    exact .nil
  | n :: rest => by
    rw [firingsBelow, List.pairwise_append]
    refine ⟨inOrder_firingsAt (p ++ [i]) n, inOrder_firingsBelow p (i + 1) rest, fun g hg h hh => ?_⟩
    obtain ⟨j, hij, hj⟩ := place_walkBelow p (i + 1) rest _ (source_firingsBelow hh)
    exact Firing.inOrder_of_aside
      (aside_of_ne (by omega) (place_walkAt (p ++ [i]) n _ (source_firingsAt hg)) hj)

end

/-! ## How often a node fires -/

/-- The node is a tag whose name is a kind that it fires under already. -/
def repeats (n : Node) (kind : Text) : Bool :=
  n.isTag && n.kind = kind && (kind = "node" || kind = "tag")

/-- How often a node fires under a kind, in either phase. -/
def timesFired (n : Node) (kind : Text) : Nat := if n.repeats kind then 2 else 1

/-- The kinds of all nodes but tags are fixed, and none of them is a generic one. -/
theorem kind_of_not_isTag {n : Node} (h : n.isTag = false) : n.kind ≠ "node" ∧ n.kind ≠ "tag" := by
  obtain ⟨shape, span, children⟩ := n
  change shape.isTag = false at h
  show shape.kind ≠ _ ∧ shape.kind ≠ _
  unfold Shape.isTag at h
  unfold Shape.kind
  cases shape with
  | liquid head =>
    dsimp only at h ⊢
    split
    · decide
    · decide
    · decide
    · exact absurd ‹_› (of_decide_eq_false h)
  | html head =>
    dsimp only
    split <;> decide
  | yaml document => exact of_decide_eq_true rfl
  | graphql => exact of_decide_eq_true rfl

/-- **A node fires under each of its kinds once**, and twice if its own kind is one of the others. -/
theorem count_eventKinds (n : Node) (kind : Text) :
    n.eventKinds.count kind = if kind ∈ n.eventKinds then n.timesFired kind else 0 := by
  have hone (t : Text) : [t].count kind = if t = kind then 1 else 0 := by
    rw [List.count_singleton]
    simp only [beq_iff_eq]
  have htags : (if n.isTag then [("tag" : Text)] else []).count kind =
      if kind = "tag" ∧ n.isTag then 1 else 0 := by
    cases n.isTag with
    | true => simp only [if_pos, hone, and_true, eq_comm]
    | false => simp
  have hcount : n.eventKinds.count kind = (if ("node" : Text) = kind then 1 else 0) +
      ((if kind = "tag" ∧ n.isTag then 1 else 0) + if n.kind = kind then 1 else 0) := by
    rw [eventKinds, ← List.singleton_append, List.count_append, List.count_append, hone, hone, htags]
  have hmem : kind ∈ n.eventKinds ↔ kind = "node" ∨ (kind = "tag" ∧ n.isTag) ∨ n.kind = kind := by
    unfold eventKinds
    cases n.isTag <;> simp [eq_comm]
  have hrepeats : n.repeats kind = true ↔
      n.isTag = true ∧ n.kind = kind ∧ (kind = "node" ∨ kind = "tag") := by
    simp [repeats, and_assoc]
  have hnamed : n.isTag = true ∨ (n.kind ≠ "node" ∧ n.kind ≠ "tag") := by
    cases htag : n.isTag with
    | true => exact .inl rfl
    | false => exact .inr (kind_of_not_isTag htag)
  have hne : ("node" : Text) ≠ "tag" := by decide
  rw [hcount]
  unfold timesFired
  grind

theorem count_events (n : Node) (phase : Phase) (e : Event) :
    (n.events phase).count e = if phase = e.phase then n.eventKinds.count e.kind else 0 := by
  have hkinds (kinds : List Text) :
      (kinds.map (Event.mk phase)).count e = if phase = e.phase then kinds.count e.kind else 0 := by
    split
    · rename_i hphase
      subst hphase
      rw [List.count, List.countP_map]
      refine List.countP_congr fun kind _ => ?_
      rw [Function.comp_apply, beq_iff_eq, beq_iff_eq]
      exact ⟨fun h => h ▸ rfl, fun h => h ▸ rfl⟩
    · rename_i hphase
      refine List.count_eq_zero.2 fun he => hphase ?_
      obtain ⟨kind, -, rfl⟩ := List.mem_map.1 he
      rfl
  cases phase with
  | on => exact hkinds _
  | after => exact (hkinds _).trans (by rw [List.count_reverse])

/-- A node fires an event as often as the kind of the event is among its own. -/
theorem countP_fired (q : Place × Node) (e : Event) :
    (fired q).countP (fun g => g.place = q.1 ∧ g.event = e) = q.2.eventKinds.count e.kind := by
  have hphase (phase : Phase) :
      (firedAt phase q).countP (fun g => g.place = q.1 ∧ g.event = e) =
        if phase = e.phase then q.2.eventKinds.count e.kind else 0 := by
    rw [firedAt, List.countP_map, ← count_events, List.count]
    exact List.countP_congr fun e' _ => by simp
  rw [fired, List.countP_append, hphase, hphase]
  cases e.phase <;> simp

/-- The nodes of a walk fire each for itself. -/
theorem countP_firings {nodes : List (Place × Node)} (hnodup : (nodes.map (·.1)).Nodup)
    {q : Place × Node} (hq : q ∈ nodes) (e : Event) :
    (nodes.flatMap fired).countP (fun g => g.place = q.1 ∧ g.event = e) =
      q.2.eventKinds.count e.kind := by
  have hnone {others : List (Place × Node)} (hothers : q.1 ∉ others.map (·.1)) :
      (others.flatMap fired).countP (fun g => g.place = q.1 ∧ g.event = e) = 0 := by
    refine List.countP_eq_zero.2 fun g hg hat => hothers ?_
    obtain ⟨r, hr, hg⟩ := List.mem_flatMap.1 hg
    exact List.mem_map.2 ⟨r, hr, source_fired hg ▸ (of_decide_eq_true hat).1⟩
  induction nodes with
  | nil => exact nomatch hq
  | cons r rest ih =>
    rw [List.map_cons, List.nodup_cons] at hnodup
    rw [List.flatMap_cons, List.countP_append]
    rcases List.mem_cons.1 hq with rfl | hq
    · rw [countP_fired, hnone hnodup.1, Nat.add_zero]
    · have hr : q.1 ∉ [r].map (·.1) := fun hr =>
        hnodup.1 ((List.mem_singleton.1 hr : q.1 = r.1) ▸ List.mem_map_of_mem hq)
      have hfired := hnone hr
      rw [List.flatMap_singleton] at hfired
      rw [hfired, ih hnodup.2 hq, Nat.zero_add]

/-- Of the events before the children, a node fires each as often as its kind is among its own. -/
theorem on_fired (q : Place × Node) (kind : Text) :
    ((firedAt .on q).filter (·.event = ⟨.on, kind⟩)).map Firing.source =
      List.replicate (q.2.eventKinds.count kind) q := by
  have hkinds : ((fun g : Firing => decide (g.event = ⟨.on, kind⟩)) ∘
      fun k => (⟨q.1, ⟨.on, k⟩, q.2⟩ : Firing)) = (· == kind) := by
    funext k
    rw [Function.comp_apply, Bool.eq_iff_iff, decide_eq_true_iff, beq_iff_eq]
    exact ⟨fun h => (Event.mk.inj h).2, fun h => h ▸ rfl⟩
  calc ((firedAt .on q).filter (·.event = ⟨.on, kind⟩)).map Firing.source
    _ = ((q.2.eventKinds.map fun k => (⟨q.1, ⟨.on, k⟩, q.2⟩ : Firing)).filter
        (·.event = ⟨.on, kind⟩)).map Firing.source := by
      rw [firedAt, events, List.map_map]
      rfl
    _ = (q.2.eventKinds.filter (· == kind)).map (Function.const Text q) := by
      rw [List.filter_map, hkinds, List.map_map]
      rfl
    _ = List.replicate (q.2.eventKinds.count kind) q := by
      rw [List.map_const, List.count, List.countP_eq_length_filter]

end Node

end Source

end LiquidLint
