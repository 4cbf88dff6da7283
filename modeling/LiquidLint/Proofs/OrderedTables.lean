import Mathlib.Data.List.Pairwise
import Mathlib.Data.List.Sort
import LiquidLint.Table

/-!
# Tables in order

The order of byte texts is a linear one.  A table answers as what was done to it says: setting a name
changes the value of that name only (`Table.get?_insert`), and so does dropping one
(`Table.get?_erase`).  Texts that were put in order, each once, stand in strictly ascending order
(`Text.pairwise_sortDedup`).

The names of a table that was filled by its operations stand in ascending order, each once
(`Table.Ordered`).  Such a table is the map that its lookups describe: its entries are exactly what can
be looked up (`Table.Ordered.mem_entries`), and two of them with the same lookups are equal
(`Table.Ordered.ext`).  So dropping entries and going through a table can be told by lookups alone
(`Table.Ordered.get?_filter`, `Table.Ordered.get?_foldl`).
-/

namespace LiquidLint

/-- What is compared by a part of it is in order as the parts are. -/
theorem transCmp_on {α β : Type} (f : α → β) (cmp : β → β → Ordering) [Std.TransCmp cmp] :
    Std.TransCmp fun a b => cmp (f a) (f b) where
  eq_swap {a b} := @Std.OrientedCmp.eq_swap β cmp _ (f a) (f b)
  isLE_trans {a b c} := @Std.TransCmp.isLE_trans β cmp _ (f a) (f b) (f c)

namespace Text

/-! ## The order of texts -/

instance : Std.LawfulEqCmp order := inferInstanceAs (Std.LawfulEqCmp (List.compareLex compare))

instance : Std.TransCmp order := inferInstanceAs (Std.TransCmp (List.compareLex compare))

theorem order_eq_iff (a b : Text) : order a b = .eq ↔ a = b := Std.LawfulEqCmp.compare_eq_iff_eq

theorem order_swap (a b : Text) : order b a = (order a b).swap := Std.OrientedCmp.eq_swap

theorem le_iff (a b : Text) : le a b = true ↔ order a b ≠ .gt := bne_iff_ne

theorem le_trans (a b c : Text) (hab : le a b = true) (hbc : le b c = true) : le a c = true := by
  have hab := Ordering.isLE_iff_ne_gt.2 ((le_iff a b).1 hab)
  have hbc := Ordering.isLE_iff_ne_gt.2 ((le_iff b c).1 hbc)
  exact (le_iff a c).2 (Ordering.isLE_iff_ne_gt.1 (Std.TransCmp.isLE_trans hab hbc))

theorem le_total (a b : Text) : (le a b || le b a) = true := by
  rw [Bool.or_eq_true, le_iff, le_iff]
  by_cases h : order a b = .gt
  · refine .inr ?_
    rw [order_swap, h]
    decide
  · exact .inl h

theorem le_antisymm {a b : Text} (hab : le a b = true) (hba : le b a = true) : a = b := by
  rw [le_iff] at hab hba
  rw [← order_eq_iff]
  rw [order_swap] at hba
  cases h : order a b with
  | eq => rfl
  | lt =>
    rw [h] at hba
    exact absurd rfl hba
  | gt => exact absurd h hab

theorem pairwise_sort (ts : List Text) : (sort ts).Pairwise fun a b => le a b = true :=
  List.pairwise_mergeSort le_trans le_total ts

/-! ## Texts in order, each once -/

/-- One text stands before another one. -/
def Precedes (a b : Text) : Prop := order a b = .lt

instance (a b : Text) : Decidable (Precedes a b) := inferInstanceAs (Decidable (order a b = .lt))

theorem precedes_iff (a b : Text) : Precedes a b ↔ le a b = true ∧ a ≠ b := by
  have hne : a ≠ b ↔ order a b ≠ .eq := (order_eq_iff a b).not.symm
  unfold Precedes
  rw [le_iff, hne]
  cases order a b <;> decide

/-- Going on behind `a` leaves out what equals the text before it. -/
theorem pairwise_eraseReps_loop {a : Text} {ts acc : List Text}
    (hsorted : (a :: ts).Pairwise fun a b => le a b = true)
    (hacc : (a :: acc).Pairwise fun b a => Precedes a b) :
    (List.eraseRepsBy.loop (· == ·) a ts acc).Pairwise Precedes := by
  induction ts generalizing a acc with
  | nil =>
    unfold List.eraseRepsBy.loop
    exact List.pairwise_reverse.2 hacc
  | cons b rest ih =>
    obtain ⟨hfirst, hrest⟩ := List.pairwise_cons.1 hsorted
    unfold List.eraseRepsBy.loop
    by_cases hab : a = b
    · rw [beq_iff_eq.2 hab]
      subst hab
      exact ih hrest hacc
    · rw [beq_eq_false_iff_ne.2 hab]
      refine ih hrest (List.pairwise_cons.2 ⟨fun x hx => ?_, hacc⟩)
      have hle : Precedes a b := (precedes_iff a b).2 ⟨hfirst b (List.mem_cons_self ..), hab⟩
      rcases List.mem_cons.1 hx with rfl | hx
      · exact hle
      · exact Std.TransCmp.lt_trans ((List.pairwise_cons.1 hacc).1 x hx) hle

theorem mem_eraseReps_loop {a x : Text} {ts acc : List Text} :
    x ∈ List.eraseRepsBy.loop (· == ·) a ts acc ↔ x ∈ acc ∨ x ∈ a :: ts := by
  induction ts generalizing a acc with
  | nil =>
    unfold List.eraseRepsBy.loop
    rw [List.mem_reverse, List.mem_cons, List.mem_singleton, or_comm]
  | cons b rest ih =>
    unfold List.eraseRepsBy.loop
    by_cases hab : a = b
    · rw [beq_iff_eq.2 hab]
      subst hab
      exact ih.trans (by simp)
    · rw [beq_eq_false_iff_ne.2 hab]
      refine ih.trans ?_
      rw [List.mem_cons, List.mem_cons, or_assoc, or_left_comm, List.mem_cons, List.mem_cons]

/-- **Texts that were put in order, each once, stand in strictly ascending order.** -/
theorem pairwise_sortDedup (ts : List Text) : (sortDedup ts).Pairwise Precedes := by
  unfold sortDedup List.eraseReps
  have hsorted := pairwise_sort ts
  cases hts : sort ts with
  | nil => exact .nil
  | cons a rest =>
    rw [hts] at hsorted
    exact pairwise_eraseReps_loop hsorted (List.pairwise_singleton ..)

theorem nodup_sortDedup (ts : List Text) : (sortDedup ts).Nodup :=
  (pairwise_sortDedup ts).imp fun h => ((precedes_iff _ _).1 h).2

@[simp] theorem mem_sortDedup {t : Text} {ts : List Text} : t ∈ sortDedup ts ↔ t ∈ ts := by
  have hsort : t ∈ sort ts ↔ t ∈ ts := List.mem_mergeSort
  rw [← hsort]
  unfold sortDedup List.eraseReps
  cases sort ts with
  | nil => exact Iff.rfl
  | cons a rest => exact mem_eraseReps_loop.trans (or_iff_right List.not_mem_nil)

end Text

namespace Table

variable {α : Type} (t : Table α) (k j : Text)

/-- **Setting a name changes the value of that name only.** -/
theorem get?_insert (v : α) : (t.insert k v).get? j = if j = k then some v else t.get? j := by
  unfold insert get?
  dsimp only
  induction t.entries with
  | nil =>
    rw [insertEntry, List.lookup_cons]
    by_cases h : j = k
    · rw [if_pos h, beq_iff_eq.2 h]
    · rw [if_neg h, beq_eq_false_iff_ne.2 h]
  | cons e rest ih =>
    obtain ⟨i, w⟩ := e
    rw [insertEntry]
    cases horder : Text.order k i with
    | lt =>
      rw [List.lookup_cons]
      by_cases h : j = k
      · rw [if_pos h, beq_iff_eq.2 h]
      · rw [if_neg h, beq_eq_false_iff_ne.2 h]
    | eq =>
      obtain rfl := (Text.order_eq_iff k i).1 horder
      rw [List.lookup_cons, List.lookup_cons]
      by_cases h : j = k
      · rw [if_pos h, beq_iff_eq.2 h]
      · rw [if_neg h, beq_eq_false_iff_ne.2 h]
    | gt =>
      have hne : k ≠ i := by
        rintro rfl
        rw [(Text.order_eq_iff k k).2 rfl] at horder
        cases horder
      rw [List.lookup_cons, List.lookup_cons, ih]
      by_cases h : j = i
      · have hjk : j ≠ k := h ▸ hne.symm
        simp only [beq_iff_eq.2 h, if_neg hjk]
      · rw [beq_eq_false_iff_ne.2 h]

/-- **Dropping a name changes the value of that name only.** -/
theorem get?_erase : (t.erase k).get? j = if j = k then none else t.get? j := by
  unfold erase get?
  dsimp only
  induction t.entries with
  | nil =>
    split
    · rfl
    · rfl
  | cons e rest ih =>
    obtain ⟨i, w⟩ := e
    rw [List.filter_cons, List.lookup_cons]
    by_cases hik : i = k
    · rw [if_neg (by simpa using hik), ih]
      by_cases h : j = k
      · rw [if_pos h, if_pos h]
      · rw [if_neg h, if_neg h, beq_eq_false_iff_ne.2 (hik ▸ h)]
    · rw [if_pos (by simpa using hik), List.lookup_cons, ih]
      by_cases h : j = i
      · have hjk : j ≠ k := h ▸ hik
        simp only [beq_iff_eq.2 h, if_neg hjk]
      · rw [beq_eq_false_iff_ne.2 h]

end Table

/-! ## Texts in ascending order -/

namespace Text

instance : Std.Irrefl Precedes :=
  ⟨fun a h => ((precedes_iff a a).1 h).2 rfl⟩

instance : Std.Antisymm Precedes :=
  ⟨fun a b hab hba => le_antisymm ((precedes_iff a b).1 hab).1 ((precedes_iff b a).1 hba).1⟩

theorem Precedes.trans {a b c : Text} (hab : Precedes a b) (hbc : Precedes b c) : Precedes a c :=
  Std.TransCmp.lt_trans hab hbc

/-- **Texts in ascending order are what putting them in order gives**, however they came about. -/
theorem sortDedup_eq {ts us : List Text} (hus : us.Pairwise Precedes) (h : ∀ t, t ∈ ts ↔ t ∈ us) :
    sortDedup ts = us :=
  (pairwise_sortDedup ts).eq_of_mem_iff hus fun t => mem_sortDedup.trans (h t)

end Text

namespace Table

variable {α β : Type} {t u : Table α}

/-- The names of the table stand in ascending order, each once. -/
def Ordered (t : Table α) : Prop := t.entries.Pairwise fun d e => Text.Precedes d.1 e.1

/-! ## Operations -/

theorem ordered_empty : Ordered ({} : Table α) := .nil

theorem key_of_mem_insertEntry {k : Text} {v : α} {es : List (Text × α)} {e : Text × α}
    (h : e ∈ insertEntry k v es) : e.1 = k ∨ e ∈ es := by
  induction es with
  | nil => exact .inl (congrArg Prod.fst (List.mem_singleton.1 h))
  | cons d rest ih =>
    obtain ⟨j, w⟩ := d
    rw [insertEntry] at h
    cases horder : Text.order k j with
    | lt =>
      rw [horder] at h
      rcases List.mem_cons.1 h with rfl | h
      · exact .inl rfl
      · exact .inr h
    | eq =>
      rw [horder] at h
      rcases List.mem_cons.1 h with rfl | h
      · exact .inl rfl
      · exact .inr (List.mem_cons_of_mem _ h)
    | gt =>
      rw [horder] at h
      rcases List.mem_cons.1 h with rfl | h
      · exact .inr (List.mem_cons_self ..)
      · exact (ih h).imp_right (List.mem_cons_of_mem _)

theorem Ordered.insert (ht : t.Ordered) (k : Text) (v : α) : (t.insert k v).Ordered := by
  obtain ⟨es⟩ := t
  unfold Ordered Table.insert at *
  dsimp only at *
  induction es with
  | nil => exact List.pairwise_singleton ..
  | cons d rest ih =>
    obtain ⟨j, w⟩ := d
    obtain ⟨hfirst, hrest⟩ := List.pairwise_cons.1 ht
    rw [insertEntry]
    cases horder : Text.order k j with
    | lt =>
      refine List.pairwise_cons.2 ⟨fun e he => ?_, ht⟩
      rcases List.mem_cons.1 he with rfl | he
      · exact horder
      · exact Text.Precedes.trans horder (hfirst e he)
    | eq =>
      obtain rfl := (Text.order_eq_iff k j).1 horder
      exact List.pairwise_cons.2 ⟨hfirst, hrest⟩
    | gt =>
      refine List.pairwise_cons.2 ⟨fun e he => ?_, ih hrest⟩
      rcases key_of_mem_insertEntry he with hk | he
      · show Text.order j e.1 = .lt
        rw [hk, Text.order_swap, horder]
        rfl
      · exact hfirst e he

theorem Ordered.filter (ht : t.Ordered) (q : Text → α → Bool) : (t.filter q).Ordered :=
  List.Pairwise.filter _ ht

theorem Ordered.erase (ht : t.Ordered) (k : Text) : (t.erase k).Ordered :=
  List.Pairwise.filter _ ht

theorem Ordered.map (ht : t.Ordered) (f : α → β) : (t.map f).Ordered :=
  List.pairwise_map.2 ht

/-! ## Lookups -/

theorem get?_map (t : Table α) (f : α → β) (k : Text) : (t.map f).get? k = (t.get? k).map f := by
  unfold get? Table.map
  dsimp only
  induction t.entries with
  | nil => rfl
  | cons e rest ih =>
    rw [List.map_cons, List.lookup_cons, List.lookup_cons]
    cases k == e.1 with
    | true => rfl
    | false => exact ih

/-- **The entries of a table in order are what can be looked up.** -/
theorem Ordered.mem_entries (ht : t.Ordered) {k : Text} {v : α} :
    (k, v) ∈ t.entries ↔ t.get? k = some v := by
  obtain ⟨es⟩ := t
  unfold Ordered get? at *
  induction es with
  | nil => exact iff_of_false List.not_mem_nil nofun
  | cons e rest ih =>
    obtain ⟨j, w⟩ := e
    obtain ⟨hfirst, hrest⟩ := List.pairwise_cons.1 ht
    rw [List.mem_cons, List.lookup_cons]
    by_cases hk : k = j
    · subst hk
      -- the name stands nowhere else
      have hnone : (k, v) ∉ rest := fun hmem => Std.Irrefl.irrefl k (hfirst _ hmem)
      rw [beq_self_eq_true, or_iff_left hnone]
      simp [eq_comm]
    · rw [beq_eq_false_iff_ne.2 hk, ih hrest, or_iff_right fun h => hk (congrArg Prod.fst h)]

theorem Ordered.mem_keys (ht : t.Ordered) {k : Text} : k ∈ t.keys ↔ ∃ v, t.get? k = some v := by
  constructor
  · intro h
    obtain ⟨e, he, rfl⟩ := List.mem_map.1 h
    exact ⟨e.2, ht.mem_entries.1 he⟩
  · rintro ⟨v, hv⟩
    exact List.mem_map.2 ⟨(k, v), ht.mem_entries.2 hv, rfl⟩

/-- **Tables in order with the same lookups are equal.** -/
theorem Ordered.ext (ht : t.Ordered) (hu : u.Ordered) (h : ∀ k, t.get? k = u.get? k) : t = u := by
  obtain ⟨es⟩ := t
  obtain ⟨ds⟩ := u
  have hanti : Std.Antisymm fun d e : Text × α => Text.Precedes d.1 e.1 :=
    ⟨fun d e hde hed => absurd (hde.trans hed) (Std.Irrefl.irrefl d.1)⟩
  have hirrefl : Std.Irrefl fun d e : Text × α => Text.Precedes d.1 e.1 :=
    ⟨fun d => Std.Irrefl.irrefl d.1⟩
  refine congrArg Table.mk (List.Pairwise.eq_of_mem_iff ht hu fun e => ?_)
  exact ht.mem_entries.trans (h e.1 ▸ hu.mem_entries.symm)

theorem Ordered.get?_filter (ht : t.Ordered) (q : Text → α → Bool) (k : Text) :
    (t.filter q).get? k = (t.get? k).filter (q k) := by
  refine Option.ext fun v => ?_
  rw [← (ht.filter q).mem_entries, Option.filter_eq_some_iff, ← ht.mem_entries]
  exact List.mem_filter

/-- **Going through a table in order**, with a step that changes the value of the name at hand, changes the
values of the names of the table and no others. -/
theorem Ordered.get?_foldl_change (ht : t.Ordered) {step : Table β → Text × α → Table β}
    (value : Option β → α → Option β)
    (hstep : ∀ u e k, (step u e).get? k = if k = e.1 then value (u.get? k) e.2 else u.get? k)
    (u : Table β) (k : Text) :
    (t.entries.foldl step u).get? k = (t.get? k).elim (u.get? k) (value (u.get? k)) := by
  obtain ⟨es⟩ := t
  unfold Ordered get? at *
  induction es generalizing u with
  | nil => rfl
  | cons e rest ih =>
    obtain ⟨j, w⟩ := e
    obtain ⟨hfirst, hrest⟩ := List.pairwise_cons.1 ht
    rw [List.foldl_cons, ih _ hrest, List.lookup_cons]
    have hchanged := hstep u (j, w) k
    by_cases hk : k = j
    · subst hk
      have hnone : rest.lookup k = none := by
        refine List.lookup_eq_none_iff.2 fun e he => ?_
        rw [bne_iff_ne]
        rintro rfl
        exact Std.Irrefl.irrefl _ (hfirst e he)
      rw [hnone, beq_self_eq_true]
      exact hchanged.trans (if_pos rfl)
    · rw [beq_eq_false_iff_ne.2 hk]
      dsimp only [get?] at hchanged
      rw [if_neg hk] at hchanged
      rw [hchanged]

/-- Going through a table in order, with a step that decides the value of the name at hand, decides the names
of the table and no others. -/
theorem Ordered.get?_foldl (ht : t.Ordered) {step : Table β → Text × α → Table β}
    (value : α → Option β)
    (hstep : ∀ u e k, (step u e).get? k = if k = e.1 then value e.2 else u.get? k)
    (u : Table β) (k : Text) :
    (t.entries.foldl step u).get? k = (t.get? k).elim (u.get? k) value :=
  ht.get?_foldl_change (fun _ => value) hstep u k

theorem ordered_foldl {step : Table β → Text × α → Table β}
    (hstep : ∀ u e, u.Ordered → (step u e).Ordered) (es : List (Text × α)) {u : Table β}
    (hu : u.Ordered) : (es.foldl step u).Ordered := by
  induction es generalizing u with
  | nil => exact hu
  | cons e rest ih => exact ih (hstep u e hu)

end Table
end LiquidLint
