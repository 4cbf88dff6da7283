import LiquidLint.Project.Category
import LiquidLint.Proofs.PathNames

/-!
# Logical names

A file in one of the directories of the layout has a name by which other files can refer to it
(`name_ne_nil`): a path is cleaned before it is looked at, so it does not end in a slash
(`Path.getLast?_clean`), and something is left of it below the directory.
-/

namespace LiquidLint

namespace Path

/-- The names of a path are not empty, and they hold no slash. -/
theorem of_mem_resolve {rooted : Bool} {stack pieces : List Text}
    (hstack : ∀ t ∈ stack, t ≠ [] ∧ ('/' : UInt8) ∉ t) (hpieces : ∀ t ∈ pieces, ('/' : UInt8) ∉ t) :
    ∀ t ∈ resolve rooted stack pieces, t ≠ [] ∧ ('/' : UInt8) ∉ t := by
  have hmore {t : Text} {ts : List Text} (ht : t ≠ [] ∧ ('/' : UInt8) ∉ t)
      (hts : ∀ u ∈ ts, u ≠ [] ∧ ('/' : UInt8) ∉ u) : ∀ u ∈ t :: ts, u ≠ [] ∧ ('/' : UInt8) ∉ u := by
    intro u hu
    rcases List.mem_cons.1 hu with rfl | hu
    · exact ht
    · exact hts u hu
  induction pieces generalizing stack with
  | nil => exact fun t ht => hstack t (List.mem_reverse.1 ht)
  | cons name rest ih =>
    have hrest : ∀ t ∈ rest, ('/' : UInt8) ∉ t := fun t ht => hpieces t (List.mem_cons_of_mem _ ht)
    unfold resolve
    split
    · exact ih hstack hrest
    · rename_i hname
      have hnew : name ≠ [] ∧ ('/' : UInt8) ∉ name :=
        ⟨fun hnil => hname (by simp [hnil]), hpieces name (List.mem_cons_self ..)⟩
      split
      · cases stack with
        | nil =>
          refine ih ?_ hrest
          split
          · exact fun _ ht => (List.not_mem_nil ht).elim
          · exact hmore hnew fun _ ht => (List.not_mem_nil ht).elim
        | cons last below =>
          dsimp only
          split
          · exact ih (hmore hnew hstack) hrest
          · exact ih (fun t ht => hstack t (List.mem_cons_of_mem _ ht)) hrest
      · exact ih (hmore hnew hstack) hrest

/-- Names that are joined do not end in a slash. -/
theorem getLast?_joinWith {ts : List Text} (hts : ∀ t ∈ ts, t ≠ [] ∧ ('/' : UInt8) ∉ t) :
    (Text.joinWith ['/'] ts).getLast? ≠ some ('/' : UInt8) := by
  rcases List.eq_nil_or_concat ts with rfl | ⟨before, last, rfl⟩
  · exact nofun
  · obtain ⟨hne, hslash⟩ := hts last (by simp)
    have hlast : (Text.joinWith ['/'] (before.concat last)).getLast? = last.getLast? := by
      rw [List.concat_eq_append]
      cases before with
      | nil => rfl
      | cons t more =>
        rw [Text.joinWith_append _ (List.cons_ne_nil _ _) (List.cons_ne_nil _ _)]
        have hsingle : Text.joinWith ['/'] [last] = last := rfl
        rw [hsingle, List.getLast?_append, List.getLast?_eq_some_getLast hne, Option.some_or]
    rw [hlast]
    exact fun h => hslash (List.mem_of_getLast? h)

/-- **Of the cleaned paths, only the root ends in a slash.** -/
theorem getLast?_clean {p : Text} (h : (clean p).getLast? = some ('/' : UInt8)) :
    clean p = [('/' : UInt8)] := by
  have hbody : (Text.joinWith ['/'] (names p)).getLast? ≠ some ('/' : UInt8) :=
    getLast?_joinWith (of_mem_resolve (fun _ ht => (List.not_mem_nil ht).elim)
      fun _ ht => Text.not_mem_of_mem_splitAtByte ht)
  unfold clean at h ⊢
  dsimp only at h ⊢
  generalize Text.joinWith ['/'] (names p) = body at h hbody ⊢
  split
  · rename_i hrooted
    rw [if_pos hrooted] at h
    cases body with
    | nil => rfl
    | cons b rest =>
      rw [List.getLast?_cons_cons] at h
      exact absurd h hbody
  · rename_i hrooted
    rw [if_neg hrooted] at h
    split at h
    · exact absurd h (by decide)
    · exact absurd h hbody

end Path

namespace Project

theorem suffix_of_dropStart? {p t rest : Text} (h : Text.dropStart? p t = some rest) : rest <:+ t :=
  ⟨p, (Text.dropStart?_eq_some.1 h).symm⟩

theorem splitModule_suffix (rest : Text) : (splitModule rest).2 <:+ rest := by
  unfold splitModule
  cases hcut : Text.cut? rest ['/'] with
  | none => exact List.nil_suffix
  | some parts =>
    obtain ⟨i, _, heq⟩ := Option.map_eq_some_iff.1 hcut
    have htail : parts.2 <:+ rest := by
      rw [← heq]
      exact List.drop_suffix _ _
    dsimp only
    cases hpublic : Text.dropStart? "public/" parts.2 with
    | some after => exact (suffix_of_dropStart? hpublic).trans htail
    | none =>
      dsimp only
      cases hprivate : Text.dropStart? "private/" parts.2 with
      | some after => exact (suffix_of_dropStart? hprivate).trans htail
      | none => exact htail

/-- The path below the root of an application or module ends as the whole path does. -/
theorem splitAppRoot_suffix (p : Text) : (splitAppRoot p).2 <:+ p := by
  unfold splitAppRoot
  cases happ : Text.dropStart? "app/" p with
  | some rest =>
    dsimp only
    cases hmodules : Text.dropStart? "modules/" rest with
    | some inModules =>
      exact (splitModule_suffix inModules).trans
        ((suffix_of_dropStart? hmodules).trans (suffix_of_dropStart? happ))
    | none => exact suffix_of_dropStart? happ
  | none =>
    dsimp only
    cases hmodules : Text.dropStart? "modules/" p with
    | some inModules => exact (splitModule_suffix inModules).trans (suffix_of_dropStart? hmodules)
    | none => exact List.suffix_refl _

theorem logicalName_ne_nil {rel : Text} (h : rel ≠ []) : logicalName rel ≠ [] := by
  unfold logicalName
  dsimp only
  split
  · rename_i i hdot
    obtain ⟨u, v, hparts, hlength⟩ := Text.exists_of_offsetOf? hdot
    refine List.append_ne_nil_of_right_ne_nil _ fun hnil => ?_
    rw [hparts] at hnil
    have hlen := congrArg List.length hnil
    simp only [List.length_take, List.length_append, List.length_cons, List.length_nil] at hlen
    omega
  · exact h

/-- Below a directory of the layout stands something, unless the path ends in a slash. -/
theorem placeOf_name_ne_nil {module rel : Text} (h : (placeOf module rel).1 ≠ .other)
    (hrel : rel.getLast? ≠ some ('/' : UInt8)) : (placeOf module rel).2 ≠ [] := by
  unfold placeOf at h ⊢
  split
  · rename_i hnone
    rw [hnone] at h
    exact absurd rfl h
  · rename_i kind name hsome
    obtain ⟨entry, _, hentry⟩ := List.exists_of_findSome?_eq_some hsome
    obtain ⟨below, hbelow, heq⟩ := Option.map_eq_some_iff.1 hentry
    have hname : name ≠ [] := by
      rw [← (Prod.mk.inj heq).2]
      refine logicalName_ne_nil ?_
      rintro rfl
      -- the path would be the directory with a slash
      rw [Text.dropStart?_eq_some.1 hbelow, List.append_nil] at hrel
      refine hrel ?_
      rw [List.getLast?_append]
      rfl
    dsimp only
    split
    · exact fun hnil => hname (List.append_eq_nil_iff.1 hnil).2
    · exact hname

/-- **A file in one of the directories of the layout has a name.** -/
theorem name_ne_nil {path : Text} (h : (classify path).kind = .partialTemplate ∨
    (classify path).kind = .form) : (classify path).name ≠ [] := by
  have hslash := @Path.getLast?_clean (Text.trimStartText path "./")
  have hsuffix := splitAppRoot_suffix (Path.clean (Text.trimStartText path "./"))
  unfold classify at h ⊢
  dsimp only at h ⊢
  generalize Path.clean (Text.trimStartText path "./") = p at h hslash hsuffix ⊢
  split
  · rename_i hconfig
    rw [if_pos hconfig] at h
    exact absurd h (by simp)
  · rename_i hconfig
    rw [if_neg hconfig] at h
    split
    · rename_i huser
      rw [if_pos huser] at h
      exact absurd h (by simp)
    · rename_i huser
      rw [if_neg huser] at h
      dsimp only at h ⊢
      have hplace : (placeOf (splitAppRoot p).1 (splitAppRoot p).2).1 ≠ .other := by
        intro hother
        rw [hother] at h
        split at h <;> exact absurd h (by simp)
      refine placeOf_name_ne_nil hplace fun hend => hplace ?_
      have hroot : p = [('/' : UInt8)] := by
        refine hslash ?_
        obtain ⟨front, hp⟩ := hsuffix
        rw [← hp, List.getLast?_append, hend, Option.some_or]
      rw [hroot]
      decide

end Project
end LiquidLint
