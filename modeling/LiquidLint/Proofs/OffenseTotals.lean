import Mathlib.Algebra.BigOperators.Group.List.Lemmas
import Mathlib.Data.List.Induction
import LiquidLint.Analysis.Totals
import LiquidLint.Proofs.OrderedTables

/-!
# What totals account for

A view of offenses has an entry for each name, and what the entries count is what there is
(`Accounts`): the offenses of the entries add up to all offenses, and those of the severities in an entry
to the offenses of the entry.  Both views tell of the same pairs of a check and a file.

The totals are defined on groups, which are sorted by name before anything else happens.  Counting goes
through the offenses once instead, and keeps an account for each name (`ledger`); in which order the accounts
are gone through, and how they are sorted, is left open.  It makes no difference: the order of two accounts
ends with their names, and no two accounts have the same one, so that only one arrangement is in order
(`arranges_iff`).  Severities of one rank can differ in their names, and which of these an account keeps as the
worst one depends on the order of the offenses; but accounts are compared by its rank, and no total names it.
-/

namespace LiquidLint
namespace Totals

variable {key other : Offense → Text} {os os' : List Offense} {opts : Options}

/-! ## Groups -/

theorem names_groupBy (key : Offense → Text) (os : List Offense) :
    (groupBy key os).map (·.name) = Text.sortDedup (os.map key) := by
  rw [groupBy, List.map_map]
  exact List.map_id _

/-- A group is what has its name. -/
theorem mem_groupBy {g : Group} : g ∈ groupBy key os ↔
    (∃ o ∈ os, key o = g.name) ∧ g.offenses = os.filter fun o => key o = g.name := by
  rw [groupBy, List.mem_map]
  constructor
  · rintro ⟨n, hn, rfl⟩
    exact ⟨List.mem_map.1 (Text.mem_sortDedup.1 hn), rfl⟩
  · rintro ⟨hname, hoffenses⟩
    refine ⟨g.name, Text.mem_sortDedup.2 (List.mem_map.2 hname), ?_⟩
    rw [← hoffenses]

/-- Groups are told by their names. -/
theorem eq_of_name {g h : Group} (hg : g ∈ groupBy key os) (hh : h ∈ groupBy key os)
    (hname : g.name = h.name) : g = h := by
  obtain ⟨-, hg⟩ := mem_groupBy.1 hg
  obtain ⟨-, hh⟩ := mem_groupBy.1 hh
  obtain ⟨n, os⟩ := g
  obtain ⟨m, os'⟩ := h
  simp_all only

theorem mem_sortGroups {g : Group} :
    g ∈ sortGroups opts (groupBy key os) ↔ g ∈ groupBy key os :=
  List.mem_mergeSort

theorem perm_sortGroups (opts : Options) (gs : List Group) : (sortGroups opts gs).Perm gs :=
  List.mergeSort_perm gs _

theorem perm_names (opts : Options) (key : Offense → Text) (os : List Offense) :
    ((sortGroups opts (groupBy key os)).map (·.name)).Perm (Text.sortDedup (os.map key)) :=
  names_groupBy key os ▸ (perm_sortGroups opts (groupBy key os)).map (·.name)

/-- **Counts by name add up**, when each name there is has its count, once. -/
theorem sumOf_countP {ns : List Text} (hns : ns.Perm (Text.sortDedup (os.map key))) :
    sumOf (ns.map fun n => os.countP fun o => key o = n) = os.length := by
  have hnodup : ns.Nodup := hns.nodup_iff.2 (Text.nodup_sortDedup _)
  have hdedup : ns.Perm (os.map key).dedup :=
    (List.perm_ext_iff_of_nodup hnodup (List.nodup_dedup _)).2 fun n =>
      hns.mem_iff.trans (Text.mem_sortDedup.trans List.mem_dedup.symm)
  calc sumOf (ns.map fun n => os.countP fun o => key o = n)
      = sumOf ((os.map key).dedup.map fun n => os.countP fun o => key o = n) :=
        (hdedup.map _).sum_eq
    _ = ((os.map key).dedup.map fun n => ((os.map key).countP fun m => m = n)).sum := by
        simp only [List.countP_map]
        rfl
    _ = (os.map key).length := List.sum_map_count_dedup_eq_length (os.map key)
    _ = os.length := List.length_map ..

/-! ## Severities of some offenses -/

theorem names_severityCounts (os : List Offense) :
    (severityCounts os).map (·.1) = Text.sortDedup (os.map (·.severity.name)) := by
  rw [severityCounts, List.map_map]
  exact List.map_id _

theorem sumOf_severityCounts (os : List Offense) :
    sumOf ((severityCounts os).map (·.2)) = os.length := by
  rw [severityCounts, List.map_map]
  exact sumOf_countP (.refl (Text.sortDedup (os.map (·.severity.name))))

/-- What is counted of a severity is what there is of it, and only severities that there are. -/
theorem mem_severityCounts {s : Text} {n : Nat} : (s, n) ∈ severityCounts os ↔
    0 < n ∧ n = os.countP fun o => o.severity.name = s := by
  rw [severityCounts, List.mem_map]
  constructor
  · rintro ⟨t, ht, heq⟩
    obtain ⟨rfl, rfl⟩ := Prod.mk.inj heq
    obtain ⟨o, ho, hs⟩ := List.mem_map.1 (Text.mem_sortDedup.1 ht)
    exact ⟨List.countP_pos_iff.2 ⟨o, ho, decide_eq_true hs⟩, rfl⟩
  · rintro ⟨hpos, rfl⟩
    obtain ⟨o, ho, hs⟩ := List.countP_pos_iff.1 hpos
    exact ⟨s, Text.mem_sortDedup.2 (List.mem_map.2 ⟨o, ho, of_decide_eq_true hs⟩), rfl⟩

/-! ## Entries -/

/-- What a view says of one name. -/
structure Entry where
  name : Text
  offenses : Nat
  bySeverity : List (Text × Nat)
  /-- The names in the other view: the files of a check, and the checks of a file. -/
  others : List Text

def CheckTotals.entry (t : CheckTotals) : Entry := ⟨t.code, t.offenses, t.bySeverity, t.files⟩

def FileTotals.entry (t : FileTotals) : Entry := ⟨t.path, t.offenses, t.bySeverity, t.checks⟩

def Group.entry (other : Offense → Text) (g : Group) : Entry :=
  ⟨g.name, g.offenses.length, severityCounts g.offenses, Text.sortDedup (g.offenses.map other)⟩

/-- The entries of a view of offenses, by one of their names, with another one of them. -/
structure Accounts (key other : Offense → Text) (os : List Offense) (es : List Entry) : Prop where
  nodup : (es.map (·.name)).Nodup
  mem_names : ∀ n, n ∈ es.map (·.name) ↔ ∃ o ∈ os, key o = n
  sum_offenses : sumOf (es.map (·.offenses)) = os.length
  offenses : ∀ e ∈ es, e.offenses = os.countP fun o => key o = e.name
  sum_severities : ∀ e ∈ es, sumOf (e.bySeverity.map (·.2)) = e.offenses
  severities_sorted : ∀ e ∈ es, (e.bySeverity.map (·.1)).Pairwise Text.Precedes
  mem_severities : ∀ e ∈ es, ∀ s n, (s, n) ∈ e.bySeverity ↔
    0 < n ∧ n = os.countP fun o => key o = e.name ∧ o.severity.name = s
  others_sorted : ∀ e ∈ es, e.others.Pairwise Text.Precedes
  mem_others : ∀ e ∈ es, ∀ t, t ∈ e.others ↔ ∃ o ∈ os, key o = e.name ∧ other o = t

/-- The pairs that a view tells of are those of the offenses. -/
theorem Accounts.exists_others {α : Type} {ts : List α} {entry : α → Entry}
    (h : Accounts key other os (ts.map entry)) (n m : Text) :
    (∃ t ∈ ts, (entry t).name = n ∧ m ∈ (entry t).others) ↔ ∃ o ∈ os, key o = n ∧ other o = m := by
  constructor
  · rintro ⟨t, ht, rfl, hm⟩
    exact (h.mem_others (entry t) (List.mem_map_of_mem ht) m).1 hm
  · rintro ⟨o, ho, rfl, rfl⟩
    obtain ⟨e, he, hname⟩ := List.mem_map.1 ((h.mem_names (key o)).2 ⟨o, ho, rfl⟩)
    obtain ⟨t, ht, rfl⟩ := List.mem_map.1 he
    exact ⟨t, ht, hname, (h.mem_others _ he (other o)).2 ⟨o, ho, hname.symm, rfl⟩⟩

/-- **Sorted groups account for the offenses.** -/
theorem accounts_sortGroups (opts : Options) (key other : Offense → Text) (os : List Offense) :
    Accounts key other os ((sortGroups opts (groupBy key os)).map (Group.entry other)) := by
  have hnames := perm_names opts key os
  have hlength : ∀ g ∈ sortGroups opts (groupBy key os),
      g.offenses.length = os.countP fun o => key o = g.name := fun g hg => by
    rw [(mem_groupBy.1 (mem_sortGroups.1 hg)).2, List.countP_eq_length_filter]
  have hentries : ((sortGroups opts (groupBy key os)).map (Group.entry other)).map (·.name) =
      (sortGroups opts (groupBy key os)).map (·.name) := List.map_map
  -- what is said of an entry is said of the group that it stands for
  have hall {P : Entry → Prop} (h : ∀ g : Group, g.offenses = os.filter (fun o => key o = g.name) →
      P (g.entry other)) : ∀ e ∈ (sortGroups opts (groupBy key os)).map (Group.entry other), P e := by
    intro e he
    obtain ⟨g, hg, rfl⟩ := List.mem_map.1 he
    exact h g (mem_groupBy.1 (mem_sortGroups.1 hg)).2
  constructor
  case nodup =>
    rw [hentries]
    exact hnames.nodup_iff.2 (Text.nodup_sortDedup _)
  case mem_names =>
    intro n
    rw [hentries, hnames.mem_iff, Text.mem_sortDedup, List.mem_map]
  case sum_offenses =>
    rw [List.map_map, ← sumOf_countP hnames, List.map_map]
    exact congrArg sumOf (List.map_congr_left hlength)
  case offenses =>
    intro e he
    obtain ⟨g, hg, rfl⟩ := List.mem_map.1 he
    exact hlength g hg
  case sum_severities => exact hall fun g _ => sumOf_severityCounts g.offenses
  case severities_sorted =>
    refine hall fun g _ => ?_
    rw [Group.entry, names_severityCounts]
    exact Text.pairwise_sortDedup _
  case mem_severities =>
    refine hall fun g hg s n => ?_
    have hcount : (g.offenses.countP fun o => o.severity.name = s) =
        os.countP fun o => key o = g.name ∧ o.severity.name = s := by
      rw [hg, List.countP_filter]
      simp only [Bool.decide_and, Bool.and_comm]
    exact hcount ▸ mem_severityCounts
  case others_sorted => exact hall fun g _ => Text.pairwise_sortDedup _
  case mem_others =>
    refine hall fun g hg t => ?_
    rw [Group.entry, Text.mem_sortDedup, List.mem_map, hg]
    simp only [List.mem_filter, decide_eq_true_eq, and_assoc]

/-! ## The order of two groups -/

/-- What the order of groups looks at. -/
structure Standing where
  offenses : Nat
  worst : Nat
  name : Text

def Group.standing (g : Group) : Standing := ⟨g.offenses.length, worstRank g.offenses, g.name⟩

/-- What decides before the names do. -/
def Standing.first (opts : Options) (a b : Standing) : Ordering :=
  match opts.sortBy with
  | .count =>
    let c := compare a.offenses b.offenses
    if opts.descending then c.swap else c
  | .severity => compare a.worst b.worst
  | .alpha => .eq

def Standing.order (opts : Options) (a b : Standing) : Ordering :=
  (first opts a b).then (Text.order a.name b.name)

theorem Group.order_eq (g h : Group) : g.order opts h = g.standing.order opts h.standing := rfl

instance : Std.TransCmp (Standing.first opts) := by
  obtain ⟨sortBy, descending⟩ := opts
  cases sortBy with
  | count =>
    cases descending with
    | false => exact transCmp_on Standing.offenses compare
    | true =>
      have hdown : Std.TransCmp fun m n : Nat => (compare m n).swap := by
        simp only [Nat.compare_swap]
        infer_instance
      exact transCmp_on Standing.offenses fun m n => (compare m n).swap
  | severity => exact transCmp_on Standing.worst compare
  | alpha => exact transCmp_on (fun _ => 0) (compare : Nat → Nat → Ordering)

instance : Std.TransCmp (Standing.order opts) :=
  have := transCmp_on Standing.name Text.order
  inferInstanceAs (Std.TransCmp (compareLex (Standing.first opts) fun a b => Text.order a.name b.name))

/-- Only names that are equal do not decide. -/
theorem Standing.name_eq {a b : Standing} (h : a.order opts b = .eq) : a.name = b.name :=
  (Text.order_eq_iff a.name b.name).1 (Ordering.then_eq_eq.1 h).2

theorem pairwise_sortGroups (opts : Options) (gs : List Group) :
    (sortGroups opts gs).Pairwise fun g h => g.order opts h ≠ .gt := by
  have hle (g h : Group) : (g.order opts h != .gt) = true ↔
      (g.standing.order opts h.standing).isLE = true :=
    Group.order_eq g h ▸ bne_iff_ne.trans Ordering.isLE_iff_ne_gt.symm
  have htrans (g h k : Group) (hgh : (g.order opts h != .gt) = true)
      (hhk : (h.order opts k != .gt) = true) : (g.order opts k != .gt) = true := by
    rw [hle] at hgh hhk ⊢
    exact Std.TransCmp.isLE_trans hgh hhk
  have htotal (g h : Group) : (g.order opts h != .gt || h.order opts g != .gt) = true := by
    have hswap : h.order opts g = (g.order opts h).swap :=
      @Std.OrientedCmp.eq_swap _ (Standing.order opts) _ h.standing g.standing
    rw [hswap]
    cases g.order opts h <;> decide
  exact (List.pairwise_mergeSort htrans htotal gs).imp bne_iff_ne.1

/-! ## Tables that are filled in one pass -/

/-- Offenses gone through once: each changes the value of its name. -/
def fill {α : Type} (key : Offense → Text) (add : Option α → Offense → α) (os : List Offense) :
    Table α :=
  os.foldl (fun t o => t.insert (key o) (add (t.get? (key o)) o)) {}

section Fill

variable {α : Type} {add : Option α → Offense → α} (value : Text → List Offense → α)

theorem fill_concat (key : Offense → Text) (add : Option α → Offense → α) (os : List Offense)
    (o : Offense) : fill key add (os ++ [o]) =
      (fill key add os).insert (key o) (add ((fill key add os).get? (key o)) o) :=
  List.foldl_concat ..

theorem ordered_fill (key : Offense → Text) (add : Option α → Offense → α) (os : List Offense) :
    (fill key add os).Ordered := by
  induction os using List.reverseRecOn with
  | nil => exact Table.ordered_empty
  | append_singleton os o ih =>
    rw [fill_concat]
    exact ih.insert ..

/-- **The value of a name is told by the offenses that have it**, when one more offense changes it as
told. -/
theorem get?_fill
    (hadd : ∀ os o, add (if os = [] then none else some (value (key o) os)) o =
      value (key o) (os ++ [o]))
    (os : List Offense) (n : Text) : (fill key add os).get? n =
      if (os.filter fun o => key o = n) = [] then none
      else some (value n (os.filter fun o => key o = n)) := by
  induction os using List.reverseRecOn with
  | nil => rfl
  | append_singleton os o ih =>
    rw [fill_concat, Table.get?_insert, List.filter_append, List.filter_singleton]
    by_cases hn : n = key o
    · subst hn
      rw [if_pos rfl, ih, hadd, decide_eq_true rfl, cond_true, if_neg (by simp)]
    · rw [if_neg hn, ih, decide_eq_false (Ne.symm hn), cond_false, List.append_nil]

/-- A table that is filled in one pass has an entry for each group. -/
theorem entries_fill
    (hadd : ∀ os o, add (if os = [] then none else some (value (key o) os)) o =
      value (key o) (os ++ [o]))
    (os : List Offense) :
    (fill key add os).entries = (groupBy key os).map fun g => (g.name, value g.name g.offenses) := by
  have hordered := ordered_fill key add os
  have hgroups : (⟨(groupBy key os).map fun g => (g.name, value g.name g.offenses)⟩ : Table α).Ordered := by
    refine List.pairwise_map.2 ?_
    have hnames := Text.pairwise_sortDedup (os.map key)
    rw [← names_groupBy] at hnames
    exact List.pairwise_map.1 hnames
  refine congrArg Table.entries (hordered.ext hgroups fun n => Option.ext fun v => ?_)
  rw [← hgroups.mem_entries, get?_fill value hadd, List.mem_map]
  constructor
  · intro hv
    obtain ⟨hfilter, hvalue⟩ := Option.ite_none_left_eq_some.1 hv
    obtain rfl := Option.some.inj hvalue
    obtain ⟨o, ho⟩ := List.exists_mem_of_ne_nil _ hfilter
    have hname := List.mem_filter.1 ho
    exact ⟨⟨n, _⟩, mem_groupBy.2 ⟨⟨o, hname.1, of_decide_eq_true hname.2⟩, rfl⟩, rfl⟩
  · rintro ⟨g, hg, heq⟩
    obtain ⟨rfl, rfl⟩ := Prod.mk.inj heq
    obtain ⟨⟨o, ho, hname⟩, hoffenses⟩ := mem_groupBy.1 hg
    have hfilter : o ∈ os.filter fun o => key o = g.name :=
      List.mem_filter.2 ⟨ho, decide_eq_true hname⟩
    rw [if_neg (List.ne_nil_of_mem hfilter), hoffenses]

end Fill

/-! ## Accounts -/

/-- The more severe one of two severities; the empty name gives way to any other. -/
def worse (s t : Severity) : Severity := if s = ⟨[]⟩ ∨ t.rank < s.rank then t else s

/-- What is counted under one name. -/
structure Account where
  name : Text
  offenses : Nat := 0
  correctable : Nat := 0
  bySeverity : Table Nat := {}
  /-- The names in the other view. -/
  others : Table Unit := {}
  worst : Severity := ⟨[]⟩

namespace Account

/-- The account with one more offense. -/
def add (other : Offense → Text) (a : Account) (o : Offense) : Account where
  name := a.name
  offenses := a.offenses + 1
  correctable := if o.correctable then a.correctable + 1 else a.correctable
  bySeverity :=
    a.bySeverity.insert o.severity.name ((a.bySeverity.get? o.severity.name).getD 0 + 1)
  others := a.others.insert (other o) ()
  worst := worse a.worst o.severity

def checkTotals (a : Account) : CheckTotals :=
  ⟨a.name, a.offenses, a.correctable, a.bySeverity.entries, a.others.keys⟩

def fileTotals (a : Account) : FileTotals :=
  ⟨a.name, a.offenses, a.bySeverity.entries, a.others.keys⟩

def standing (a : Account) : Standing := ⟨a.offenses, a.worst.rank, a.name⟩

end Account

/-- The accounts of offenses that are gone through once, by name. -/
def ledger (key other : Offense → Text) (os : List Offense) : Table Account :=
  fill key (fun a o => (a.getD { name := key o }).add other o) os

/-- Accounts of a ledger, each once, in the order that was asked for. -/
structure Arranges (opts : Options) (t : Table Account) (accounts : List Account) : Prop where
  perm : accounts.Perm (t.entries.map (·.2))
  sorted : accounts.Pairwise fun a b => a.standing.order opts b.standing ≠ .gt

/-! ## What an account holds -/

theorem rank_le (s : Severity) : s.rank ≤ 2 := by
  unfold Severity.rank
  split
  · omega
  · split <;> omega

theorem rank_worse (s t : Severity) : (worse s t).rank = min s.rank t.rank := by
  unfold worse
  split
  case isTrue h =>
    rcases h with rfl | h
    · exact (Nat.min_eq_right (rank_le t)).symm
    · omega
  case isFalse h => omega

namespace Account

/-- The account of a name, with what the offenses of that name come to. -/
structure Holds (other : Offense → Text) (n : Text) (os : List Offense) (a : Account) : Prop where
  name : a.name = n
  offenses : a.offenses = os.length
  correctable : a.correctable = os.countP (·.correctable)
  bySeverity : a.bySeverity = fill (·.severity.name) (fun count _ => count.getD 0 + 1) os
  others : a.others = fill other (fun _ _ => ()) os
  worst : a.worst.rank = worstRank os

theorem Holds.add {n : Text} {a : Account} (h : a.Holds other n os) (o : Offense) :
    (a.add other o).Holds other n (os ++ [o]) where
  name := h.name
  offenses := by
    rw [List.length_append, ← h.offenses]
    rfl
  correctable := by
    rw [List.countP_append, ← h.correctable, List.countP_singleton, Account.add]
    split <;> rfl
  bySeverity := by rw [fill_concat, ← h.bySeverity, Account.add]
  others := by rw [fill_concat, ← h.others, Account.add]
  worst := by
    rw [Account.add, rank_worse, h.worst, worstRank, worstRank, List.foldl_concat]

end Account

namespace Group

/-- The account of a group. -/
def account (other : Offense → Text) (g : Group) : Account :=
  g.offenses.foldl (Account.add other) { name := g.name }

theorem holds_account (other : Offense → Text) (g : Group) :
    (g.account other).Holds other g.name g.offenses := by
  obtain ⟨n, os⟩ := g
  unfold account
  dsimp only
  induction os using List.reverseRecOn with
  | nil => exact ⟨rfl, rfl, rfl, rfl, rfl, rfl⟩
  | append_singleton os o ih =>
    rw [List.foldl_concat]
    exact ih.add o

theorem standing_account (other : Offense → Text) (g : Group) :
    (g.account other).standing = g.standing := by
  have h := g.holds_account other
  rw [Account.standing, h.name, h.offenses, h.worst, standing]

/-- The severities are counted as they are listed. -/
theorem bySeverity_account (other : Offense → Text) (g : Group) :
    (g.account other).bySeverity.entries = severityCounts g.offenses := by
  have hadd (os : List Offense) (o : Offense) :
      (if os = [] then none else some os.length).getD 0 + 1 = (os ++ [o]).length := by
    split <;> simp_all
  rw [(g.holds_account other).bySeverity, entries_fill (fun _ os => os.length) hadd, groupBy,
    List.map_map, severityCounts]
  refine List.map_congr_left fun n _ => ?_
  rw [List.countP_eq_length_filter]
  rfl

theorem others_account (other : Offense → Text) (g : Group) :
    (g.account other).others.keys = Text.sortDedup (g.offenses.map other) := by
  rw [(g.holds_account other).others, Table.keys, entries_fill (fun _ _ => ()) fun _ _ => rfl,
    List.map_map, ← names_groupBy]
  rfl

end Group

theorem entries_ledger (key other : Offense → Text) (os : List Offense) :
    (ledger key other os).entries.map (·.2) = (groupBy key os).map (Group.account other) := by
  rw [ledger, entries_fill fun n os => Group.account other ⟨n, os⟩, List.map_map]
  · rfl
  · intro os o
    rw [Group.account, Group.account, List.foldl_concat]
    cases os with
    | nil => rfl
    | cons p rest => rfl

/-- The accounts of the groups in order are in order. -/
theorem arranges_sortGroups (opts : Options) (key other : Offense → Text) (os : List Offense) :
    Arranges opts (ledger key other os)
      ((sortGroups opts (groupBy key os)).map (Group.account other)) where
  perm := by
    rw [entries_ledger]
    exact (perm_sortGroups opts _).map _
  sorted := by
    refine List.pairwise_map.2 ((pairwise_sortGroups opts _).imp fun hle => ?_)
    rwa [Group.standing_account, Group.standing_account]

/-- **Accounts have one arrangement that is in order.** -/
theorem arranges_iff {accounts : List Account} : Arranges opts (ledger key other os) accounts ↔
    accounts = (sortGroups opts (groupBy key os)).map (Group.account other) := by
  have hgroups := arranges_sortGroups opts key other os
  refine ⟨fun h => ?_, fun h => h ▸ hgroups⟩
  refine List.Perm.eq_of_pairwise (fun a b ha hb hab hba => ?_) h.sorted hgroups.sorted
    (h.perm.trans hgroups.perm.symm)
  have hequal : a.standing.order opts b.standing = .eq :=
    Std.OrientedCmp.isLE_antisymm (Ordering.isLE_iff_ne_gt.2 hab) (Ordering.isLE_iff_ne_gt.2 hba)
  have hname : a.standing.name = b.standing.name := Standing.name_eq hequal
  -- accounts of one name are those of one group
  rw [h.perm.mem_iff, entries_ledger] at ha
  obtain ⟨g, hg, rfl⟩ := List.mem_map.1 ha
  obtain ⟨g', hg', rfl⟩ := List.mem_map.1 hb
  rw [Group.standing_account, Group.standing_account] at hname
  rw [eq_of_name hg (mem_sortGroups.1 hg') hname]

/-! ## Offenses in another order -/

theorem sortDedup_map_perm (name : Offense → Text) (h : os'.Perm os) :
    Text.sortDedup (os'.map name) = Text.sortDedup (os.map name) :=
  Text.sortDedup_eq (Text.pairwise_sortDedup _) fun _ =>
    (h.map name).mem_iff.trans Text.mem_sortDedup.symm

theorem severityCounts_perm (h : os'.Perm os) : severityCounts os' = severityCounts os := by
  rw [severityCounts, severityCounts, sortDedup_map_perm _ h]
  refine List.map_congr_left fun n _ => ?_
  rw [h.countP_eq]

theorem worstRank_perm (h : os'.Perm os) : worstRank os' = worstRank os :=
  h.foldl_eq' (fun _ _ _ _ _ => by omega) 2

/-- **What sorted groups tell does not depend on the order of the offenses**, when it does not for one
group. -/
theorem map_sortGroups_perm {β : Type} {f : Group → β}
    (hf : ∀ n {os os' : List Offense}, os'.Perm os → f ⟨n, os'⟩ = f ⟨n, os⟩) (opts : Options)
    (key : Offense → Text) (h : os'.Perm os) :
    (sortGroups opts (groupBy key os')).map f = (sortGroups opts (groupBy key os)).map f := by
  -- what is told of a group is sorted along with what it is sorted by
  let told (g : Group) : Standing × β := (g.standing, f g)
  have hsort (os : List Offense) : (sortGroups opts (groupBy key os)).map told =
      ((groupBy key os).map told).mergeSort fun a b => a.1.order opts b.1 != .gt :=
    List.map_mergeSort fun _ _ _ _ => rfl
  have htold : (groupBy key os').map told = (groupBy key os).map told := by
    rw [groupBy, groupBy, sortDedup_map_perm key h, List.map_map, List.map_map]
    refine List.map_congr_left fun n _ => ?_
    have hgroup := h.filter fun o => key o = n
    refine Prod.ext ?_ (hf n hgroup)
    show Standing.mk _ _ n = Standing.mk _ _ n
    rw [hgroup.length_eq, worstRank_perm hgroup]
  have hsnd (gs : List Group) : gs.map f = (gs.map told).map (·.2) := by
    rw [List.map_map]
    rfl
  rw [hsnd, hsnd, hsort, hsort, htold]

/-! ## The two views -/

theorem byCheck_eq (opts : Options) (os : List Offense) : byCheck opts os =
    (sortGroups opts (groupBy (·.code) os)).map fun g => (g.account (·.path)).checkTotals := by
  refine List.map_congr_left fun g _ => ?_
  have h := g.holds_account (·.path)
  rw [Account.checkTotals, h.name, h.offenses, h.correctable, g.bySeverity_account, g.others_account]

theorem byFile_eq (opts : Options) (os : List Offense) : byFile opts os =
    (sortGroups opts (groupBy (·.path) os)).map fun g => (g.account (·.code)).fileTotals := by
  refine List.map_congr_left fun g _ => ?_
  have h := g.holds_account (·.code)
  rw [Account.fileTotals, h.name, h.offenses, g.bySeverity_account, g.others_account]

theorem byCheck_perm (opts : Options) (h : os'.Perm os) : byCheck opts os' = byCheck opts os := by
  refine map_sortGroups_perm (fun n os os' h => ?_) opts _ h
  dsimp only
  rw [h.length_eq, h.countP_eq, severityCounts_perm h, sortDedup_map_perm _ h]

theorem byFile_perm (opts : Options) (h : os'.Perm os) : byFile opts os' = byFile opts os := by
  refine map_sortGroups_perm (fun n os os' h => ?_) opts _ h
  dsimp only
  rw [h.length_eq, severityCounts_perm h, sortDedup_map_perm _ h]

theorem accounts_byCheck (opts : Options) (os : List Offense) :
    Accounts (·.code) (·.path) os ((byCheck opts os).map CheckTotals.entry) := by
  rw [byCheck, List.map_map]
  exact accounts_sortGroups ..

theorem accounts_byFile (opts : Options) (os : List Offense) :
    Accounts (·.path) (·.code) os ((byFile opts os).map FileTotals.entry) := by
  rw [byFile, List.map_map]
  exact accounts_sortGroups ..

/-- **Totals conserve what they count, and pass over the order it is in.**  Each view has an entry for each
name there is, once; what it counts adds up; the views tell of the same pairs of a check and a file.  They
are the same for the offenses in any order.  And they are what one pass leads to: its accounts have exactly
one arrangement that is in order, however they are gone through and sorted. -/
theorem totals_conserve (opts : Options) (os : List Offense) :
    Accounts (·.code) (·.path) os ((byCheck opts os).map CheckTotals.entry) ∧
      Accounts (·.path) (·.code) os ((byFile opts os).map FileTotals.entry) ∧
      (∀ code path, (∃ t ∈ byCheck opts os, t.code = code ∧ path ∈ t.files) ↔
        ∃ t ∈ byFile opts os, t.path = path ∧ code ∈ t.checks) ∧
      (∀ os', os'.Perm os → byCheck opts os' = byCheck opts os ∧ byFile opts os' = byFile opts os) ∧
      (∃ accounts, accounts.map Account.checkTotals = byCheck opts os ∧
        ∀ as, Arranges opts (ledger (·.code) (·.path) os) as ↔ as = accounts) ∧
      ∃ accounts, accounts.map Account.fileTotals = byFile opts os ∧
        ∀ as, Arranges opts (ledger (·.path) (·.code) os) as ↔ as = accounts := by
  have hchecks := accounts_byCheck opts os
  have hfiles := accounts_byFile opts os
  refine ⟨hchecks, hfiles, fun code path => ?_, fun os' h => ⟨byCheck_perm opts h, byFile_perm opts h⟩,
    ⟨_, ?_, fun _ => arranges_iff⟩, ⟨_, ?_, fun _ => arranges_iff⟩⟩
  · calc (∃ t ∈ byCheck opts os, t.code = code ∧ path ∈ t.files)
        ↔ ∃ o ∈ os, o.code = code ∧ o.path = path := hchecks.exists_others code path
      _ ↔ ∃ o ∈ os, o.path = path ∧ o.code = code := by simp only [and_comm]
      _ ↔ ∃ t ∈ byFile opts os, t.path = path ∧ code ∈ t.checks :=
          (hfiles.exists_others path code).symm
  · rw [byCheck_eq, List.map_map]
    rfl
  · rw [byFile_eq, List.map_map]
    rfl

/-- Of two checks with one offense each, the name decides, whichever way the counts are sorted. -/
example :
    let os : List Offense :=
      [⟨"SpaceInsideBraces", .style, "", "a", 0, {}, {}, true⟩,
        ⟨"UnusedAssign", .suggestion, "", "c", 0, {}, {}, true⟩,
        ⟨"MissingTemplate", .error, "", "b", 0, {}, {}, false⟩,
        ⟨"SpaceInsideBraces", .style, "", "b", 0, {}, {}, true⟩]
    (byCheck {} os).map (fun t => (t.code, t.offenses, t.files)) =
        ([("SpaceInsideBraces", 2, ["a", "b"]), ("MissingTemplate", 1, ["b"]),
          ("UnusedAssign", 1, ["c"])] : List (Text × Nat × List Text)) ∧
      (byCheck { descending := false } os).map (·.code) =
        ["MissingTemplate", "UnusedAssign", "SpaceInsideBraces"] := by
  cbv

end Totals
end LiquidLint
