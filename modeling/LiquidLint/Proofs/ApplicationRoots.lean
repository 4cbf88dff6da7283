import LiquidLint.Config.Discovery
import LiquidLint.Proofs.CrossFileChecks
import LiquidLint.Proofs.PathNames
import LiquidLint.Proofs.Utf8Text

/-!
# Templates of applications

A template that other files refer to lies in one of two directories of an application, and is named by what
follows there (`classify_template`).
-/

namespace LiquidLint
namespace Text

/-! ## Lower case -/

/-- What is read first does not depend on what stands behind an ASCII byte. -/
theorem nextChar?_append {t : Text} (ht : t ≠ []) {b : UInt8} (hb : b.toNat < 0x80) (u : Text) :
    nextChar? (t ++ b :: u) = (nextChar? t).map fun (c, more) => (c, more ++ b :: u) := by
  cases hread : nextChar? t with
  | some read =>
    obtain ⟨c, more⟩ := read
    rw [eq_append_of_nextChar? hread, List.append_assoc, nextChar?_ofChar]
    rfl
  | none =>
    have hnone (c : Char) (more : Text) : t ≠ ofChar c ++ more := by
      rintro rfl
      exact nomatch (nextChar?_ofChar c more).symm.trans hread
    cases hread' : nextChar? (t ++ b :: u) with
    | none => rfl
    | some read =>
      obtain ⟨c, more⟩ := read
      exfalso
      rcases List.append_eq_append_iff.1 (eq_append_of_nextChar? hread') with ⟨t', hc, hrest⟩ | ⟨t', hc, -⟩
      · cases t' with
        | nil => exact hnone c [] (by rw [hc, List.append_nil, List.append_nil])
        | cons b' t' =>
          -- the byte would be part of a character that starts before it
          obtain ⟨rfl, -⟩ := List.cons.inj hrest
          have hone := ofChar_of_ascii (c := c) (by rw [hc]; simp) hb
          have hlength := congrArg List.length (hc.symm.trans hone)
          have hpos := List.length_pos_of_ne_nil ht
          simp only [List.length_append, List.length_cons, List.length_nil] at hlength
          omega
      · exact hnone c t' hc

theorem length_of_nextChar? {b : UInt8} {rest more : Text} {c : Char}
    (h : nextChar? (b :: rest) = some (c, more)) : more.length ≤ rest.length := by
  have hlength := congrArg List.length (eq_append_of_nextChar? h)
  have hpos := List.length_pos_of_ne_nil (ofChar_ne_nil c)
  simp only [List.length_append, List.length_cons] at hlength
  omega

/-- **A text is read in two parts** at an ASCII byte. -/
theorem units_append (t : Text) {b : UInt8} (hb : b.toNat < 0x80) (u : Text) :
    units (t ++ b :: u) = units t ++ units (b :: u) := by
  fun_induction units t with
  | case1 => rfl
  | case2 a rest hread ih =>
    have hnone := nextChar?_append (List.cons_ne_nil a rest) hb u
    rw [hread] at hnone
    rw [List.cons_append] at hnone ⊢
    rw [units, hnone]
    exact congrArg _ ih
  | case3 a rest c more hread hle ih =>
    have hsome := nextChar?_append (List.cons_ne_nil a rest) hb u
    rw [hread] at hsome
    rw [List.cons_append] at hsome ⊢
    rw [units, hsome]
    have hlength := length_of_nextChar? hsome
    simp only [Option.map_some]
    rw [if_pos hlength, ih]
    rfl
  | case4 a rest c more hread hle => exact absurd (length_of_nextChar? hread) hle

/-- A character that a text is read to have stands in it, unless it stands for a stray byte. -/
theorem mem_of_mem_chars {t : Text} {c : Char} (h : c ∈ chars t) (hc : c ≠ replacement) :
    ∀ b ∈ ofChar c, b ∈ t := by
  unfold chars at h
  fun_induction units t with
  | case1 => exact nomatch h
  | case2 a rest hread ih =>
    rcases List.mem_cons.1 h with rfl | h
    · exact absurd rfl hc
    · exact fun b hb => List.mem_cons_of_mem a (ih h b hb)
  | case3 a rest d more hread hle ih =>
    rw [eq_append_of_nextChar? hread]
    rcases List.mem_cons.1 h with rfl | h
    · exact fun b hb => List.mem_append_left _ hb
    · exact fun b hb => List.mem_append_right _ (ih h b hb)
  | case4 => exact nomatch h

theorem toLower_append (t : Text) {b : UInt8} (hb : b.toNat < 0x80) (u : Text) :
    toLower (t ++ b :: u) = toLower t ++ toLower (b :: u) := by
  simp only [toLower, chars, units_append t hb u, List.map_append, ofChars, List.flatMap_append]

/-- No other character is mapped to a dot. -/
theorem eq_dot_of_mapCase {c : Char} (h : mapCase lowerRuns c = '.') : c = '.' := by
  have hruns : ∀ r ∈ lowerRuns, 0x2E < r.image := by decide +kernel
  unfold mapCase at h
  split at h
  · next n hn =>
    obtain ⟨r, hr, hmap⟩ := List.exists_of_findSome?_eq_some hn
    have himage := hruns r hr
    have hn' : n = 0x2E := by
      by_cases hvalid : n.isValidChar
      · rw [Char.ofNat, dif_pos hvalid] at h
        exact congrArg Char.toNat h
      · rw [Char.ofNat, dif_neg hvalid] at h
        exact absurd h (by decide)
    unfold CaseRun.map? at hmap
    split at hmap
    · have := Option.some.inj hmap
      omega
    · exact nomatch hmap
  · exact h

/-- **Lower case brings no dots.** -/
theorem not_mem_toLower {t : Text} (h : ('.' : UInt8) ∉ t) : ('.' : UInt8) ∉ toLower t := by
  intro hmem
  obtain ⟨c', hc', hbyte⟩ := List.mem_flatMap.1 hmem
  obtain ⟨c, hc, rfl⟩ := List.mem_map.1 hc'
  have hone := ofChar_of_ascii hbyte (by decide)
  have hdot : mapCase lowerRuns c = '.' := by
    have hread := nextChar?_ofChar (mapCase lowerRuns c) []
    rw [hone] at hread
    exact (Prod.mk.inj (Option.some.inj hread)).1.symm
  obtain rfl := eq_dot_of_mapCase hdot
  exact h (mem_of_mem_chars hc (by decide) _ (by decide))

/-! ## The last name of a path -/

theorem hasText_iff {t p : Text} : hasText t p = true ↔ ∃ u v, t = u ++ (p ++ v) := by
  constructor
  · intro h
    obtain ⟨i, hi⟩ := Option.isSome_iff_exists.1 h
    obtain ⟨u, v, ht, -⟩ := exists_of_offsetOf? hi
    exact ⟨u, v, ht⟩
  · rintro ⟨u, v, rfl⟩
    induction u with
    | nil =>
      rw [List.nil_append, hasText, offsetOf?_append_self]
      rfl
    | cons b u ih =>
      obtain ⟨i, hi⟩ := Option.isSome_iff_exists.1 ih
      rw [hasText, List.cons_append, offsetOf?_cons, hi]
      split <;> rfl

/-- A path ends in a name, and what stands in front of it ends in a slash. -/
theorem exists_last_name (t : Text) : ∃ name, ('/' : UInt8) ∉ name ∧ (t = name ∨
    ∃ above, t = above ++ ('/' : UInt8) :: name) := by
  rcases List.eq_nil_or_concat (splitAtByte t '/') with hnil | ⟨before, name, hsplit⟩
  · exact absurd hnil (splitAtByte_ne_nil t)
  · have hslash : ('/' : UInt8) ∉ name := not_mem_of_mem_splitAtByte (t := t) (by simp [hsplit])
    have hjoin : joinWith ['/'] (before ++ [name]) = t := by
      rw [← List.concat_eq_append, ← hsplit]
      exact joinWith_splitAtByte t
    refine ⟨name, hslash, ?_⟩
    cases before with
    | nil => exact .inl hjoin.symm
    | cons first more =>
      rw [joinWith_append _ (List.cons_ne_nil first more) (List.cons_ne_nil name [])] at hjoin
      refine .inr ⟨joinWith ['/'] (first :: more), ?_⟩
      rw [← hjoin]
      exact List.append_assoc ..

end Text

namespace Path

theorem split_of_not_mem {name : Text} (h : ('/' : UInt8) ∉ name) : split name = ([], name) := by
  have hnone : Text.offsetOf? name.reverse ['/'] = none := by
    by_contra hsome
    obtain ⟨i, hi⟩ := Option.ne_none_iff_exists'.1 hsome
    obtain ⟨u, v, hname, -⟩ := Text.exists_of_offsetOf? hi
    exact h (List.mem_reverse.1 (by simp [hname]))
  rw [split, Text.lastOffsetOf?]
  simp [hnone]

end Path

namespace Project

/-! ## Categories -/

/-- The names of the directories that a path leads through. -/
def directories (p : Text) : List Text := (Text.splitAtByte p '/').dropLast

theorem directories_append (above below : Text) :
    directories (above ++ ('/' : UInt8) :: below) = Text.splitAtByte above '/' ++ directories below := by
  rw [directories, Text.splitAtByte_append, List.dropLast_append_of_ne_nil (Text.splitAtByte_ne_nil below)]
  rfl

theorem directories_of_not_mem {name : Text} (h : ('/' : UInt8) ∉ name) : directories name = [] := by
  rw [directories, Text.splitAtByte_of_not_mem h]
  rfl

/-- What is added to the last name leaves the directories alone. -/
theorem directories_append_ending (t : Text) {ending : Text} (h : ('/' : UInt8) ∉ ending) :
    directories (t ++ ending) = directories t := by
  obtain ⟨name, hname, rfl | ⟨above, rfl⟩⟩ := Text.exists_last_name t
  · rw [directories_of_not_mem hname, directories_of_not_mem (by simp [hname, h])]
  · rw [List.append_assoc, List.cons_append, directories_append, directories_append,
      directories_of_not_mem hname, directories_of_not_mem (by simp [hname, h])]

/-- **A path lies among the assets** if one of its directories has that name. -/
theorem inAssets_iff {p : Text} : inAssets p = true ↔ Text.ofString "assets" ∈ directories p := by
  have hassets (below : Text) : Text.ofString "assets" ∈ directories ("assets/" ++ below) := by
    have hsplit : Text.ofString "assets/" ++ below = "assets" ++ ('/' : UInt8) :: below := rfl
    rw [hsplit, directories_append]
    exact List.mem_append_left _ (by decide)
  rw [inAssets, Bool.or_eq_true, Text.hasText_iff, Text.startsWith_iff]
  constructor
  · rintro (⟨u, v, rfl⟩ | ⟨v, rfl⟩)
    · have hsplit : u ++ (Text.ofString "/assets/" ++ v) = u ++ ('/' : UInt8) :: ("assets/" ++ v) := rfl
      rw [hsplit, directories_append]
      exact List.mem_append_right _ (hassets v)
    · exact hassets v
  · intro hmem
    obtain ⟨before, after, hsplit⟩ := List.append_of_mem hmem
    have hne := @Text.splitAtByte_ne_nil '/' p
    have hjoin := @Text.joinWith_splitAtByte '/' p
    rw [← List.dropLast_append_getLast hne, show (Text.splitAtByte p '/').dropLast = _ from hsplit,
      List.append_assoc, List.cons_append] at hjoin
    generalize (Text.splitAtByte p '/').getLast hne = last at hjoin
    have hafter : after ++ [last] ≠ [] := by simp
    have hbelow := Text.joinWith_cons ['/'] (Text.ofString "assets") hafter
    by_cases hbefore : before = []
    · subst hbefore
      refine .inr ⟨Text.joinWith ['/'] (after ++ [last]), ?_⟩
      rw [← hjoin, List.nil_append, hbelow]
      rfl
    · refine .inl ⟨Text.joinWith ['/'] before, Text.joinWith ['/'] (after ++ [last]), ?_⟩
      rw [← hjoin, Text.joinWith_append _ hbefore (List.cons_ne_nil _ _), hbelow]
      simp only [List.append_assoc]
      rfl

theorem endingCategory?_append {t : Text} (h : ('.' : UInt8) ∉ t) (ending : Text) :
    endingCategory? (t ++ ending) = endingCategory? ending := by
  induction t with
  | nil => rfl
  | cons b t ih =>
    obtain ⟨hb, ht⟩ := List.ne_and_not_mem_of_not_mem_cons h
    rw [List.cons_append, endingCategory?, if_neg (Ne.symm hb)]
    exact ih ht

/-- The ending of templates decides, wherever it is the only one. -/
theorem categoryOf_liquid {t : Text} (h : ('.' : UInt8) ∉ t) :
    categoryOf (t ++ ".liquid") =
      if Text.ofString "assets" ∈ directories t then .asset else .liquid := by
  have hlower : Text.toLower (t ++ ".liquid") = Text.toLower t ++ ".liquid" :=
    (Text.toLower_append t (by decide) _).trans (congrArg _ (by decide +kernel))
  have hending : endingCategory? (Text.toLower (t ++ ".liquid")) = some .liquid := by
    rw [hlower, endingCategory?_append (Text.not_mem_toLower h)]
    decide
  have hassets := @inAssets_iff (t ++ ".liquid")
  rw [directories_append_ending t (by decide)] at hassets
  rw [categoryOf, hending]
  by_cases hmem : Text.ofString "assets" ∈ directories t
  · rw [if_pos hmem, if_pos (hassets.2 hmem)]
  · rw [if_neg hmem, if_neg (mt hassets.1 hmem)]

/-! ## Names -/

/-- The ending is no part of the name. -/
theorem logicalName_liquid {t : Text} (hdot : ('.' : UInt8) ∉ t)
    (hnames : ∀ name ∈ Text.splitAtByte t '/', name ≠ []) : logicalName (t ++ ".liquid") = t := by
  have hending : ('/' : UInt8) ∉ Text.ofString ".liquid" := by decide
  have hlast {name : Text} (hname : name ≠ []) (hdot : ('.' : UInt8) ∉ name) :
      ∃ i, Text.offsetOf? (name ++ ".liquid") ['.'] = some (i + 1) ∧ name.length = i + 1 := by
    obtain ⟨b, rest, rfl⟩ := List.exists_cons_of_ne_nil hname
    exact ⟨rest.length, Text.offsetOf?_of_not_mem hdot [] "liquid", rfl⟩
  obtain ⟨name, hslash, ht | ⟨above, ht⟩⟩ := Text.exists_last_name t
  · subst ht
    have hname : t ≠ [] := hnames t (by simp [Text.splitAtByte_of_not_mem hslash])
    obtain ⟨i, hoffset, hlength⟩ := hlast hname hdot
    rw [logicalName, Path.split_of_not_mem (List.not_mem_append hslash hending)]
    dsimp only
    rw [hoffset]
    simp [← hlength]
  · subst ht
    have hname : name ≠ [] := hnames name (by simp [Text.splitAtByte_append, Text.splitAtByte_of_not_mem hslash])
    obtain ⟨i, hoffset, hlength⟩ := hlast hname fun hmem => hdot (by simp [hmem])
    rw [logicalName, List.append_assoc, List.cons_append,
      Path.split_append above (List.not_mem_append hslash hending)]
    dsimp only
    rw [hoffset]
    simp [← hlength]

/-! ## Roots -/

/-- A path of plain names is looked at as it is. -/
theorem cleaned_of_plain {p : Text} (h : Path.ArePlain (Text.splitAtByte p '/')) :
    Path.clean (Text.trimStartText p "./") = p := by
  have htrim : Text.trimStartText p "./" = p := by
    rw [Text.trimStartText]
    cases hdrop : Text.dropStart? "./" p with
    | none => rfl
    | some rest =>
      have hp : p = Text.ofString "." ++ ('/' : UInt8) :: rest :=
        Text.dropStart?_eq_some (p := "./").1 hdrop
      rw [hp, Text.splitAtByte_append] at h
      exact absurd rfl (h "." (List.mem_append_left _ (by decide))).not_dot
  rw [htrim, Path.clean_of_plain h]

/-- The directories of an application that hold what other templates name. -/
def templateDirectories : List Text := ["views/partials", "lib"]

/-- Names without dots are plain, also with the ending of templates behind the last one. -/
theorem plain_liquid {t : Text} (hdot : ('.' : UInt8) ∉ t)
    (hnames : ∀ name ∈ Text.splitAtByte t '/', name ≠ []) :
    Path.ArePlain (Text.splitAtByte (t ++ ".liquid") '/') := by
  have hplain {name : Text} (hne : name ≠ []) (hslash : ('/' : UInt8) ∉ name) (hdot : ('.' : UInt8) ∉ name) :
      Path.IsPlain name :=
    ⟨hne, fun h => hdot (by rw [h]; decide), fun h => hdot (by rw [h]; decide), hslash⟩
  have hlast {name : Text} (hne : name ≠ []) (hslash : ('/' : UInt8) ∉ name) :
      Path.IsPlain (name ++ ".liquid") :=
    Path.isPlain_append hne hslash (by decide) (by decide)
  obtain ⟨name, hslash, ht | ⟨above, ht⟩⟩ := Text.exists_last_name t
  · subst ht
    rw [Text.splitAtByte_of_not_mem hslash] at hnames
    rw [Text.splitAtByte_of_not_mem (List.not_mem_append hslash (by decide))]
    intro piece hpiece
    rw [List.mem_singleton.1 hpiece]
    exact hlast (hnames t (List.mem_singleton_self t)) hslash
  · subst ht
    rw [Text.splitAtByte_append, Text.splitAtByte_of_not_mem hslash] at hnames
    rw [List.append_assoc, List.cons_append, Text.splitAtByte_append,
      Text.splitAtByte_of_not_mem (List.not_mem_append hslash (by decide))]
    intro piece hpiece
    rcases List.mem_append.1 hpiece with hpiece | hpiece
    · refine hplain (hnames piece (List.mem_append_left _ hpiece)) (Text.not_mem_of_mem_splitAtByte hpiece) ?_
      exact fun hmem => hdot (List.mem_append_left _ (Text.mem_of_mem_splitAtByte hpiece hmem))
    · rw [List.mem_singleton.1 hpiece]
      exact hlast (hnames name (List.mem_append_right _ (List.mem_singleton_self name))) hslash

/-- Below the root of an application the directory tells what is a template. -/
theorem splitAppRoot_app {directory : Text} (h : directory ∈ templateDirectories) (below : Text) :
    splitAppRoot ("app" ++ "/" ++ directory ++ "/" ++ below) = ([], directory ++ "/" ++ below) ∧
      placeOf [] (directory ++ "/" ++ below) = (.partialTemplate, logicalName below) ∧
      directory ++ "/" ++ below ≠ "config.yml" ∧ directory ++ "/" ++ below ≠ "user.yml" := by
  simp only [templateDirectories, List.mem_cons, List.not_mem_nil, or_false] at h
  rcases h with rfl | rfl
  · exact ⟨rfl, rfl, nofun, nofun⟩
  · exact ⟨rfl, rfl, nofun, nofun⟩

/-- The other mark of an application is no root: no directory of the layout is seen below it. -/
theorem splitAppRoot_builder (below : Text) :
    splitAppRoot ("marketplace_builder" ++ "/" ++ below) = ([], "marketplace_builder" ++ "/" ++ below) ∧
      placeOf [] ("marketplace_builder" ++ "/" ++ below) = (.other, []) ∧
      Text.ofString "marketplace_builder" ++ "/" ++ below ≠ "config.yml" ∧
      Text.ofString "marketplace_builder" ++ "/" ++ below ≠ "user.yml" :=
  ⟨rfl, rfl, nofun, nofun⟩

/-- **What a template directory below the mark of an application holds.** -/
theorem classify_template {mark directory name : Text} (hmark : mark ∈ Config.layoutDirectories)
    (hmodules : mark ≠ "modules") (hdirectory : directory ∈ templateDirectories)
    (hnames : ∀ part ∈ Text.splitAtByte name '/', part ≠ []) (hdot : ('.' : UInt8) ∉ name) :
    classify (mark ++ "/" ++ directory ++ "/" ++ name ++ ".liquid") =
      { category := if Text.ofString "assets" ∈ directories name then .asset else .liquid
        kind := if Text.ofString "assets" ∈ directories name then .asset
          else if mark = "app" then .partialTemplate else .other
        module := []
        name := if mark = "app" then name else [] } := by
  have hroot : ∀ mark ∈ Config.layoutDirectories, ∀ directory ∈ templateDirectories,
      Path.ArePlain (Text.splitAtByte (mark ++ "/" ++ directory) '/') ∧
        Text.ofString "assets" ∉ Text.splitAtByte (mark ++ "/" ++ directory) '/' ∧
        ('.' : UInt8) ∉ mark ++ "/" ++ directory := by decide
  obtain ⟨hplain, hassets, hdotless⟩ := hroot mark hmark directory hdirectory
  have hpath : mark ++ "/" ++ directory ++ "/" ++ name ++ ".liquid" =
      (mark ++ "/" ++ directory) ++ ('/' : UInt8) :: (name ++ ".liquid") := by
    simp only [List.append_assoc]
    rfl
  have hclean : Path.clean (Text.trimStartText (mark ++ "/" ++ directory ++ "/" ++ name ++ ".liquid") "./") =
      mark ++ "/" ++ directory ++ "/" ++ name ++ ".liquid" := by
    refine cleaned_of_plain ?_
    rw [hpath, Text.splitAtByte_append]
    exact hplain.append (plain_liquid hdot hnames)
  have hcategory : categoryOf (mark ++ "/" ++ directory ++ "/" ++ name ++ ".liquid") =
      if Text.ofString "assets" ∈ directories name then .asset else .liquid := by
    have hbelow : mark ++ "/" ++ directory ++ "/" ++ name =
        (mark ++ "/" ++ directory) ++ ('/' : UInt8) :: name := by
      simp only [List.append_assoc]
      rfl
    rw [categoryOf_liquid (List.not_mem_append (List.not_mem_append hdotless (by decide)) hdot), hbelow,
      directories_append]
    simp only [List.mem_append, hassets, false_or]
  have hmarks : mark = "app" ∨ mark = "marketplace_builder" := by
    simp only [Config.layoutDirectories, List.mem_cons, List.not_mem_nil, or_false] at hmark
    rcases hmark with happ | hmod | hbuilder
    · exact .inl happ
    · exact absurd hmod hmodules
    · exact .inr hbuilder
  simp only [classify]
  rw [hclean, hcategory]
  rcases hmarks with rfl | rfl
  · obtain ⟨hsplit, hplace, hconfig, huser⟩ := splitAppRoot_app hdirectory (name ++ ".liquid")
    rw [List.append_assoc _ name, hsplit]
    dsimp only
    rw [if_neg hconfig, if_neg huser, hplace, logicalName_liquid hdot hnames]
    split <;> rfl
  · obtain ⟨hsplit, hplace, hconfig, huser⟩ := splitAppRoot_builder (directory ++ "/" ++ name ++ ".liquid")
    have hassoc : Text.ofString "marketplace_builder" ++ "/" ++ directory ++ "/" ++ name ++ ".liquid" =
        "marketplace_builder" ++ "/" ++ (directory ++ "/" ++ name ++ ".liquid") := by
      simp only [List.append_assoc]
    have hother : Text.ofString "marketplace_builder" ≠ "app" := by decide
    rw [hassoc, hsplit]
    dsimp only
    rw [if_neg hconfig, if_neg huser, hplace, if_neg hother, if_neg hother]
    split <;> rfl

/-- **Templates are found below the root `app`**, and only those that do not lie among assets: their file is
that of a partial with the name.  Below any other mark of an application it makes no difference to the
references of a project that the file is there. -/
theorem found_below_mark {mark directory name : Text} (hmark : mark ∈ Config.layoutDirectories)
    (hmodules : mark ≠ "modules") (hdirectory : directory ∈ templateDirectories)
    (hnames : ∀ part ∈ Text.splitAtByte name '/', part ≠ []) (hdot : ('.' : UInt8) ∉ name) :
    classify (mark ++ "/" ++ directory ++ "/" ++ name ++ ".liquid") =
      { category := if Text.ofString "assets" ∈ directories name then .asset else .liquid
        kind := if Text.ofString "assets" ∈ directories name then .asset
          else if mark = "app" then .partialTemplate else .other
        module := []
        name := if mark = "app" then name else [] } ∧
    ∀ paths : List Text,
      Rule.Reference.Defined ((mark ++ "/" ++ directory ++ "/" ++ name ++ ".liquid") :: paths)
          .partialTemplate name ↔
        (mark = "app" ∧ Text.ofString "assets" ∉ directories name) ∨
          Rule.Reference.Defined paths .partialTemplate name := by
  have hclassify := classify_template hmark hmodules hdirectory hnames hdot
  refine ⟨hclassify, fun paths => ?_⟩
  have hself : (classify (mark ++ "/" ++ directory ++ "/" ++ name ++ ".liquid")).kind = .partialTemplate ∧
      (classify (mark ++ "/" ++ directory ++ "/" ++ name ++ ".liquid")).name = name ↔
        mark = "app" ∧ Text.ofString "assets" ∉ directories name := by
    rw [hclassify]
    by_cases happ : mark = "app"
    · by_cases hassets : Text.ofString "assets" ∈ directories name
      · simp [happ, hassets]
      · simp [happ, hassets]
    · by_cases hassets : Text.ofString "assets" ∈ directories name
      · simp [happ, hassets]
      · simp [happ, hassets]
  rw [Rule.Reference.Defined, List.exists_mem_cons_iff, hself]
  rfl

/-- A partial of a library, and one below the other mark. -/
theorem found_below_mark_card :
    classify "app/lib/shared/card.liquid" =
      { category := .liquid, kind := .partialTemplate, module := [], name := "shared/card" } ∧
    Rule.Reference.Defined ["app/lib/shared/card.liquid"] .partialTemplate "shared/card" ∧
    ¬ Rule.Reference.Defined ["marketplace_builder/lib/shared/card.liquid"] .partialTemplate "shared/card" := by
  have happ := @found_below_mark "app" "lib" "shared/card" (by decide) (by decide) (by decide) (by decide)
    (by decide)
  have hbuilder := @found_below_mark "marketplace_builder" "lib" "shared/card" (by decide) (by decide)
    (by decide) (by decide) (by decide)
  refine ⟨happ.1.trans (by decide), (happ.2 []).2 (.inl (by decide)), fun h => ?_⟩
  rcases (hbuilder.2 []).1 h with ⟨hother, -⟩ | ⟨path, hpath, -⟩
  · exact absurd hother (by decide)
  · exact nomatch hpath

/-- A directory that the search takes for the mark of an application, and in which no template is seen; and a
template that is taken for an asset. -/
theorem template_unseen :
    Text.ofString "marketplace_builder" ∈ Config.layoutDirectories ∧
    classify "marketplace_builder/views/partials/card.liquid" =
      { category := .liquid, kind := .other, module := [], name := [] } ∧
    ¬ Rule.Reference.Defined ["marketplace_builder/views/partials/card.liquid"] .partialTemplate "card" ∧
    Text.ofString "app" ∈ Config.layoutDirectories ∧
    classify "app/views/partials/assets/icon.liquid" =
      { category := .asset, kind := .asset, module := [], name := "assets/icon" } ∧
    ¬ Rule.Reference.Defined ["app/views/partials/assets/icon.liquid"] .partialTemplate "assets/icon" := by
  decide +kernel

end Project
end LiquidLint
