import LiquidLint.Proofs.Trimming
import LiquidLint.Text.Path

/-!
# Names of paths

Splitting a path at its slashes and joining the names again are inverse to each other, and splitting
takes apart what was put together with a slash.  Cleaning a path drops empty names and dots, and takes a name
away for each double dot.  All other names are plain: they are kept as they are (`Path.resolve_plain`), so that
a path of nothing but plain names is clean (`Path.clean_of_plain`).  What is left of a path that starts at the
root is plain (`Path.plain_names`).
-/

namespace LiquidLint
namespace Text

/-! ## Pieces -/

theorem startsWith_iff {t p : Text} : startsWith t p = true ↔ ∃ rest, t = p ++ rest := by
  unfold startsWith
  simp only [Option.isSome_iff_exists, dropStart?_eq_some]

section Split

variable (sep : UInt8)

theorem splitAtByte_sep (t : Text) : splitAtByte (sep :: t) sep = [] :: splitAtByte t sep := by
  simp [splitAtByte, splitWhere]

variable {sep}

theorem splitAtByte_ne_nil (t : Text) : splitAtByte t sep ≠ [] := by
  cases t with
  | nil => exact List.cons_ne_nil _ _
  | cons b t =>
    unfold splitAtByte splitWhere
    split
    · exact List.cons_ne_nil _ _
    · split <;> exact List.cons_ne_nil _ _

/-- A byte that does not separate stands at the start of the first piece. -/
theorem splitAtByte_cons {b : UInt8} (hb : b ≠ sep) {t piece : Text} {more : List Text}
    (ht : splitAtByte t sep = piece :: more) : splitAtByte (b :: t) sep = (b :: piece) :: more := by
  unfold splitAtByte at ht ⊢
  unfold splitWhere
  rw [ht, decide_eq_false hb, if_neg Bool.false_ne_true]

/-- **Splitting takes apart** what is put together with the byte. -/
theorem splitAtByte_append (s t : Text) :
    splitAtByte (s ++ sep :: t) sep = splitAtByte s sep ++ splitAtByte t sep := by
  induction s with
  | nil => exact splitAtByte_sep sep t
  | cons b s ih =>
    rw [List.cons_append]
    by_cases hb : b = sep
    · subst hb
      rw [splitAtByte_sep, splitAtByte_sep, ih, List.cons_append]
    · obtain ⟨piece, more, hs⟩ := List.exists_cons_of_ne_nil (splitAtByte_ne_nil s)
      rw [hs, List.cons_append] at ih
      rw [splitAtByte_cons hb ih, splitAtByte_cons hb hs, List.cons_append]

theorem splitAtByte_of_not_mem {t : Text} (ht : sep ∉ t) : splitAtByte t sep = [t] := by
  induction t with
  | nil => rfl
  | cons b t ih =>
    obtain ⟨hb, ht⟩ := List.ne_and_not_mem_of_not_mem_cons ht
    exact splitAtByte_cons hb.symm (ih ht)

/-- No piece holds the byte. -/
theorem not_mem_of_mem_splitAtByte {t piece : Text} (h : piece ∈ splitAtByte t sep) : sep ∉ piece := by
  induction t generalizing piece with
  | nil =>
    rw [List.mem_singleton.1 h]
    exact List.not_mem_nil
  | cons b t ih =>
    by_cases hb : b = sep
    · subst hb
      rw [splitAtByte_sep] at h
      rcases List.mem_cons.1 h with rfl | h
      · exact List.not_mem_nil
      · exact ih h
    · obtain ⟨first, more, ht⟩ := List.exists_cons_of_ne_nil (@splitAtByte_ne_nil sep t)
      rw [splitAtByte_cons hb ht] at h
      rcases List.mem_cons.1 h with rfl | h
      · have hfirst : sep ∉ first := ih (ht ▸ List.mem_cons_self ..)
        simp [hfirst, Ne.symm hb]
      · exact ih (ht ▸ List.mem_cons_of_mem _ h)

/-- A piece of a text stands in it. -/
theorem mem_of_mem_splitAtByte {b : UInt8} {t piece : Text} (h : piece ∈ splitAtByte t sep)
    (hb : b ∈ piece) : b ∈ t := by
  induction t generalizing piece with
  | nil =>
    rw [List.mem_singleton.1 h] at hb
    exact hb
  | cons a t ih =>
    by_cases ha : a = sep
    · subst ha
      rw [splitAtByte_sep] at h
      rcases List.mem_cons.1 h with rfl | h
      · exact nomatch hb
      · exact List.mem_cons_of_mem a (ih h hb)
    · obtain ⟨first, more, ht⟩ := List.exists_cons_of_ne_nil (@splitAtByte_ne_nil sep t)
      rw [splitAtByte_cons ha ht] at h
      rcases List.mem_cons.1 h with rfl | h
      · rcases List.mem_cons.1 hb with rfl | hb
        · exact List.mem_cons_self ..
        · exact List.mem_cons_of_mem a (ih (ht ▸ List.mem_cons_self ..) hb)
      · exact List.mem_cons_of_mem a (ih (ht ▸ List.mem_cons_of_mem _ h) hb)

end Split

/-! ## Joining -/

section Join

variable {sep : UInt8}

theorem joinWith_cons (sep t : Text) {rest : List Text} (hrest : rest ≠ []) :
    joinWith sep (t :: rest) = t ++ sep ++ joinWith sep rest := by
  cases rest with
  | nil => exact absurd rfl hrest
  | cons u more => rfl

theorem joinWith_append (sep : Text) {ts us : List Text} (hts : ts ≠ []) (hus : us ≠ []) :
    joinWith sep (ts ++ us) = joinWith sep ts ++ sep ++ joinWith sep us := by
  induction ts with
  | nil => exact absurd rfl hts
  | cons t rest ih =>
    rw [List.cons_append, joinWith_cons sep t (List.append_ne_nil_of_right_ne_nil rest hus)]
    cases rest with
    | nil => rfl
    | cons u more =>
      rw [ih (List.cons_ne_nil _ _), joinWith_cons sep t (List.cons_ne_nil u more)]
      simp only [List.append_assoc]

/-- What stands in joined texts stands in one of them, unless it joins them. -/
theorem exists_of_mem_joinWith {ts : List Text} {b : UInt8} (hsep : b ≠ sep)
    (h : b ∈ joinWith [sep] ts) : ∃ t ∈ ts, b ∈ t := by
  induction ts with
  | nil => exact nomatch h
  | cons t rest ih =>
    by_cases hrest : rest = []
    · subst hrest
      exact ⟨t, List.mem_singleton_self t, h⟩
    · rw [joinWith_cons [sep] t hrest] at h
      rcases List.mem_append.1 h with h | h
      · rcases List.mem_append.1 h with h | h
        · exact ⟨t, List.mem_cons_self .., h⟩
        · exact absurd (List.mem_singleton.1 h) hsep
      · obtain ⟨u, hu, hmem⟩ := ih h
        exact ⟨u, List.mem_cons_of_mem t hu, hmem⟩

/-- **Joining the pieces gives the text back.** -/
theorem joinWith_splitAtByte (t : Text) : joinWith [sep] (splitAtByte t sep) = t := by
  induction t with
  | nil => rfl
  | cons b t ih =>
    obtain ⟨first, more, ht⟩ := List.exists_cons_of_ne_nil (@splitAtByte_ne_nil sep t)
    by_cases hb : b = sep
    · subst hb
      rw [splitAtByte_sep, joinWith_cons _ _ (splitAtByte_ne_nil t), ih]
      rfl
    · rw [splitAtByte_cons hb ht]
      rw [ht] at ih
      cases more with
      | nil => exact congrArg (b :: ·) ih
      | cons u rest => exact congrArg (b :: ·) ih

/-- **Splitting gives the pieces back.** -/
theorem splitAtByte_joinWith {ts : List Text} (hne : ts ≠ []) (hts : ∀ t ∈ ts, sep ∉ t) :
    splitAtByte (joinWith [sep] ts) sep = ts := by
  induction ts with
  | nil => exact absurd rfl hne
  | cons t rest ih =>
    have ht := splitAtByte_of_not_mem (hts t (List.mem_cons_self ..))
    cases rest with
    | nil => exact ht
    | cons u more =>
      rw [joinWith_cons _ _ (List.cons_ne_nil u more), List.append_assoc, List.singleton_append,
        splitAtByte_append, ht, ih (List.cons_ne_nil u more) fun v hv => hts v (List.mem_cons_of_mem t hv)]
      rfl

end Join

/-! ## Where a text is found -/

section Search

variable {p : Text}

/-- Whether a text starts with another is told by as many bytes as the other has. -/
theorem startsWith_append {t : Text} (h : p.length ≤ t.length) (more : Text) :
    startsWith (t ++ more) p = startsWith t p := by
  rw [Bool.eq_iff_iff, startsWith_iff, startsWith_iff]
  constructor
  · rintro ⟨rest, hrest⟩
    have hstart := congrArg (List.take p.length) hrest
    rw [List.take_append_of_le_length h, List.take_left] at hstart
    exact ⟨t.drop p.length, by rw [← List.take_append_drop p.length t, hstart, List.drop_left]⟩
  · rintro ⟨rest, rfl⟩
    exact ⟨rest ++ more, List.append_assoc ..⟩

theorem offsetOf?_cons (b : UInt8) (t p : Text) :
    offsetOf? (b :: t) p =
      if startsWith (b :: t) p then some 0 else (offsetOf? t p).map (· + 1) := by
  rw [offsetOf?]

theorem offsetOf?_append_self (p t : Text) : offsetOf? (p ++ t) p = some 0 := by
  unfold offsetOf?
  exact if_pos (startsWith_iff.2 ⟨t, rfl⟩)

/-- A text that is found stands where it is found. -/
theorem exists_of_offsetOf? {t : Text} {i : Nat} (h : offsetOf? t p = some i) :
    ∃ u v, t = u ++ (p ++ v) ∧ u.length = i := by
  induction t generalizing i with
  | nil =>
    unfold offsetOf? at h
    split at h
    · rename_i hstarts
      obtain ⟨rest, hrest⟩ := startsWith_iff.1 hstarts
      exact ⟨[], rest, hrest, Option.some.inj h⟩
    · cases h
  | cons b t ih =>
    rw [offsetOf?_cons] at h
    split at h
    · rename_i hstarts
      obtain ⟨rest, hrest⟩ := startsWith_iff.1 hstarts
      exact ⟨[], rest, hrest, Option.some.inj h⟩
    · obtain ⟨j, hj, rfl⟩ := Option.map_eq_some_iff.1 h
      obtain ⟨u, v, hcut, hlength⟩ := ih hj
      exact ⟨b :: u, v, congrArg (b :: ·) hcut, congrArg (· + 1) hlength⟩

/-- A text is found at the same place whatever follows. -/
theorem offsetOf?_append_iff {t : Text} {i : Nat} (hi : i + p.length ≤ t.length) (more : Text) :
    offsetOf? (t ++ more) p = some i ↔ offsetOf? t p = some i := by
  induction t generalizing i with
  | nil =>
    rw [List.length_nil, Nat.le_zero, Nat.add_eq_zero_iff] at hi
    obtain ⟨rfl, hp⟩ := hi
    obtain rfl := List.length_eq_zero_iff.1 hp
    exact iff_of_true (offsetOf?_append_self [] more) (offsetOf?_append_self [] [])
  | cons b t ih =>
    have hstart := startsWith_append (Nat.le_trans (Nat.le_add_left ..) hi) more
    rw [List.cons_append] at hstart ⊢
    rw [offsetOf?_cons, offsetOf?_cons, hstart]
    split
    · exact Iff.rfl
    · cases i with
      | zero => exact iff_of_false (by simp) (by simp)
      | succ i =>
        have hrest := ih (i := i) (by rw [List.length_cons] at hi; omega)
        simp only [Option.map_eq_some_iff, Nat.add_right_cancel_iff, exists_eq_right, hrest]

/-- A text is found where its first byte stands first. -/
theorem offsetOf?_of_not_mem {b : UInt8} {s : Text} (hs : b ∉ s) (p t : Text) :
    offsetOf? (s ++ (b :: p ++ t)) (b :: p) = some s.length := by
  induction s with
  | nil => exact offsetOf?_append_self (b :: p) t
  | cons c s ih =>
    obtain ⟨hc, hs⟩ := List.ne_and_not_mem_of_not_mem_cons hs
    have hstart : startsWith (c :: (s ++ (b :: p ++ t))) (b :: p) = false := by
      simp [startsWith, dropStart?, hc]
    rw [List.cons_append, offsetOf?_cons, hstart, if_neg Bool.false_ne_true, ih hs]
    rfl

/-- A text is cut at the first place of a byte. -/
theorem cut?_eq_some_iff {t left right : Text} {b : UInt8} :
    cut? t [b] = some (left, right) ↔ t = left ++ b :: right ∧ b ∉ left := by
  have hfirst {left right : Text} (hfree : b ∉ left) :
      cut? (left ++ b :: right) [b] = some (left, right) := by
    have hoffset : offsetOf? (left ++ b :: right) [b] = some left.length :=
      offsetOf?_of_not_mem hfree [] right
    have hbehind : left.length + [b].length = (left ++ [b]).length := List.length_append.symm
    rw [cut?, hoffset, Option.map_some, List.take_left, hbehind, List.append_cons left b right,
      List.drop_left]
  constructor
  · intro h
    obtain ⟨i, hi, -⟩ := Option.map_eq_some_iff.1 h
    obtain ⟨u, v, rfl, -⟩ := exists_of_offsetOf? hi
    have hmem : b ∈ u ++ ([b] ++ v) := by simp
    obtain ⟨front, back, hcut, hfree⟩ := List.eq_append_cons_of_mem hmem
    rw [hcut, hfirst hfree] at h
    obtain ⟨rfl, rfl⟩ := Prod.mk.inj (Option.some.inj h)
    exact ⟨hcut, hfree⟩
  · rintro ⟨rfl, hfree⟩
    exact hfirst hfree

end Search

end Text

/-! ## The last piece -/

namespace Path

/-- A path is split at its last slash. -/
theorem split_append (above : Text) {name : Text} (hname : ('/' : UInt8) ∉ name) :
    split (above ++ ('/' : UInt8) :: name) = (above ++ [('/' : UInt8)], name) := by
  have hreverse : (above ++ ('/' : UInt8) :: name).reverse =
      name.reverse ++ ('/' : UInt8) :: above.reverse := by simp
  have hlast : Text.lastOffsetOf? (above ++ ('/' : UInt8) :: name) ['/'] = some above.length := by
    unfold Text.lastOffsetOf?
    rw [hreverse]
    refine (congrArg _ (Text.offsetOf?_of_not_mem (mt List.mem_reverse.1 hname) [] _)).trans ?_
    simp only [List.length_append, List.length_cons, List.length_nil, List.length_reverse, Option.map_some]
    congr 1
    omega
  have hcut : above ++ ('/' : UInt8) :: name = (above ++ [('/' : UInt8)]) ++ name := by simp
  unfold split
  rw [hlast]
  dsimp only
  rw [hcut, List.take_left' (by simp), List.drop_left' (by simp)]

/-! ## Plain names -/

/-- A name that is kept when a path is cleaned. -/
structure IsPlain (name : Text) : Prop where
  not_empty : name ≠ []
  not_dot : name ≠ "."
  not_dots : name ≠ ".."
  no_slash : ('/' : UInt8) ∉ name

instance (name : Text) : Decidable (IsPlain name) :=
  decidable_of_iff (name ≠ [] ∧ name ≠ "." ∧ name ≠ ".." ∧ ('/' : UInt8) ∉ name)
    ⟨fun ⟨h1, h2, h3, h4⟩ => ⟨h1, h2, h3, h4⟩, fun ⟨h1, h2, h3, h4⟩ => ⟨h1, h2, h3, h4⟩⟩

/-- Names that are all plain. -/
def ArePlain (names : List Text) : Prop := ∀ name ∈ names, IsPlain name

instance (names : List Text) : Decidable (ArePlain names) := List.decidableBAll _ names

section Plain

variable {names above : List Text}

theorem ArePlain.reverse (h : ArePlain names) : ArePlain names.reverse :=
  fun name hname => h name (List.mem_reverse.1 hname)

theorem ArePlain.append (h : ArePlain names) (habove : ArePlain above) : ArePlain (names ++ above) :=
  fun name hname => (List.mem_append.1 hname).elim (h name) (habove name)

theorem ArePlain.no_slash (h : ArePlain names) : ∀ name ∈ names, ('/' : UInt8) ∉ name :=
  fun name hname => (h name hname).no_slash

/-- A name stays plain with an ending of two bytes and more. -/
theorem isPlain_append {name ending : Text} (hname : name ≠ []) (hslash : ('/' : UInt8) ∉ name)
    (hending : ('/' : UInt8) ∉ ending) (hlength : 2 ≤ ending.length) : IsPlain (name ++ ending) := by
  have hlong : 1 + 2 ≤ (name ++ ending).length := by
    rw [List.length_append]
    exact Nat.add_le_add (List.length_pos_iff.2 hname) hlength
  refine ⟨?_, ?_, ?_, List.not_mem_append hslash hending⟩
  all_goals
    intro h
    rw [h] at hlong
    exact absurd hlong (by decide)

/-- Plain names are taken as they are. -/
theorem resolve_plain (h : ArePlain names) (rooted : Bool) (stack rest : List Text) :
    resolve rooted stack (names ++ rest) = resolve rooted (names.reverse ++ stack) rest := by
  induction names generalizing stack with
  | nil => rfl
  | cons name more ih =>
    have hname := h name (List.mem_cons_self ..)
    rw [List.cons_append]
    conv => lhs; unfold resolve
    rw [if_neg (by simp [hname.not_empty, hname.not_dot]), if_neg hname.not_dots,
      ih fun n hn => h n (List.mem_cons_of_mem _ hn)]
    simp

/-- Plain names resolve to themselves. -/
theorem resolve_of_plain (h : ArePlain names) (rooted : Bool) : resolve rooted [] names = names := by
  have := resolve_plain h rooted [] []
  rw [List.append_nil, List.append_nil] at this
  exact this.trans (List.reverse_reverse names)

theorem resolve_empty (rooted : Bool) (stack rest : List Text) :
    resolve rooted stack ([] :: rest) = resolve rooted stack rest := by
  conv => lhs; unfold resolve
  exact if_pos rfl

/-- **A path of plain names is clean.** -/
theorem clean_of_plain {p : Text} (h : ArePlain (Text.splitAtByte p '/')) : clean p = p := by
  have hjoin : Text.joinWith ['/'] (Text.splitAtByte p '/') = p := Text.joinWith_splitAtByte p
  have hp : p ≠ [] := by
    rintro rfl
    exact (h [] (List.mem_singleton.2 rfl)).not_empty rfl
  have hrelative : isAbsolute p = false := by
    rw [Bool.eq_false_iff]
    intro habsolute
    obtain ⟨rest, rfl⟩ := Text.startsWith_iff.1 habsolute
    refine (h [] ?_).not_empty rfl
    rw [List.singleton_append, Text.splitAtByte_sep]
    exact List.mem_cons_self ..
  simp [clean, names, hrelative, resolve_of_plain h, hjoin, hp]

end Plain

/-- At the root no double dot is left. -/
theorem plain_of_mem_resolve {stack pieces : List Text} (hstack : ArePlain stack)
    (hpieces : ∀ t ∈ pieces, ('/' : UInt8) ∉ t) : ArePlain (resolve true stack pieces) := by
  induction pieces generalizing stack with
  | nil => exact hstack.reverse
  | cons name rest ih =>
    have hrest : ∀ t ∈ rest, ('/' : UInt8) ∉ t := fun t ht => hpieces t (List.mem_cons_of_mem _ ht)
    unfold resolve
    by_cases hdropped : name = [] ∨ name = "."
    · rw [if_pos (by simpa using hdropped)]
      exact ih hstack hrest
    · obtain ⟨hempty, hdot⟩ := not_or.1 hdropped
      rw [if_neg (by simpa using hdropped)]
      by_cases hdots : name = ".."
      · rw [if_pos hdots]
        cases stack with
        | nil => exact ih hstack hrest
        | cons last below =>
          have hlast := hstack last (List.mem_cons_self ..)
          dsimp only
          rw [if_neg hlast.not_dots]
          exact ih (fun t ht => hstack t (List.mem_cons_of_mem _ ht)) hrest
      · rw [if_neg hdots]
        refine ih (fun t ht => ?_) hrest
        rcases List.mem_cons.1 ht with rfl | ht
        · exact ⟨hempty, hdot, hdots, hpieces t (List.mem_cons_self ..)⟩
        · exact hstack t ht

/-- **The names of a path from the root are plain.** -/
theorem plain_names {p : Text} (h : isAbsolute p = true) : ArePlain (names p) := by
  have hplain := @plain_of_mem_resolve [] (Text.splitAtByte p '/') (fun _ ht => nomatch ht)
    fun _ ht => Text.not_mem_of_mem_splitAtByte ht
  rw [names, h]
  exact hplain

end Path
end LiquidLint
