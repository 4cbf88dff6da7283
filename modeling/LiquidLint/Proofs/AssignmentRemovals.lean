import LiquidLint.Proofs.BlockClosing
import LiquidLint.Proofs.TagRemoval
import LiquidLint.Proofs.TextPlaces
import LiquidLint.Proofs.TreeOrder
import LiquidLint.Proofs.UnreadAssignments

/-!
# Removed assignments

A fix of the check of assignments takes a tag out of a template, with the whole line if nothing but white
space stands beside the tag (`exists_margins`).  Two tags stand apart, and so do their removals
(`removalEdit_stop_le`): the left margin of the second holds no brace and no line feed, and a right margin of
the first that is not empty ends in one.

`unusedAssign_removes` puts this together with `keys_patch` and the order of a tree.
-/

namespace LiquidLint

namespace Text

/-- White space holds no brace. -/
theorem ne_brace_of_trimSpace {t : Text} (h : trimSpace t = []) {b : UInt8} (hb : b ∈ t) :
    b ≠ '{' ∧ b ≠ '}' := by
  have hforms : ∀ p ∈ blanks ++ blanksReversed, ∀ c ∈ p, c ≠ '{' ∧ c ≠ '}' := by decide +kernel
  obtain ⟨u, ht, hu⟩ := exists_trimForms blanks t
  obtain ⟨v, hrest, hv⟩ := exists_trimForms blanksReversed (trimForms blanks t).reverse
  have hnil : trimForms blanksReversed (trimForms blanks t).reverse = [] := List.reverse_eq_nil_iff.1 h
  rw [hnil, List.append_nil] at hrest
  rw [ht] at hb
  rcases List.mem_append.1 hb with hb | hb
  · obtain ⟨p, hp, hb⟩ := hu b hb
    exact hforms p (List.mem_append_left _ hp) b hb
  · obtain ⟨p, hp, hb⟩ := hv b (by rwa [← hrest, List.mem_reverse])
    exact hforms p (List.mem_append_right _ hp) b hb

end Text

namespace Rule
namespace Assignment

open Source Analysis Liquid

/-! ## Margins -/

/-- What is removed with a tag between `u` and `v`: nothing, or the white space `l` and `r` around it, which
reaches to the ends of its line. -/
structure Margins (u l r v : Text) : Prop where
  left_blank : Text.trimSpace l = []
  right_blank : Text.trimSpace r = []
  left_line : ('\n' : UInt8) ∉ l
  left_start : l = [] ∨ u = [] ∨ u.getLast? = some ('\n' : UInt8)
  right_stop : r = [] ∨ v = [] ∨ r.getLast? = some ('\n' : UInt8)

/-- A line feed stands behind the first line of a text, if anything does. -/
theorem exists_line (t : Text) :
    ∃ rest, t = t.takeWhile (fun (b : UInt8) => b ≠ '\n') ++ rest ∧
      (rest = [] ∨ rest.head? = some ('\n' : UInt8)) := by
  rcases firstLine_cases t with hall | ⟨rest, hrest⟩
  · exact ⟨[], by rw [hall, List.append_nil], .inl rfl⟩
  · exact ⟨_, hrest, .inr rfl⟩

theorem notMem_line (t : Text) : ('\n' : UInt8) ∉ t.takeWhile fun (b : UInt8) => b ≠ '\n' := by
  intro hmem
  simpa using List.mem_takeWhile_imp hmem

/-- **A span that is removed** is the span of the tag with its margins. -/
theorem exists_margins {source : Text} {s : Span} (hle : s.start ≤ s.stop) (hstop : s.stop ≤ source.length) :
    ∃ u l r v, source = u ++ (l ++ (Text.slice source s.start s.stop ++ (r ++ v))) ∧
      (u ++ l).length = s.start ∧
      removalSpan source s = ⟨u.length, s.stop + r.length⟩ ∧ Margins u l r v := by
  have hcut : source = source.take s.start ++ (Text.slice source s.start s.stop ++ source.drop s.stop) := by
    unfold Text.slice
    rw [← List.append_assoc, ← List.take_add, Nat.add_sub_cancel' hle, List.take_append_drop]
  have hbefore : (source.take s.start).length = s.start := List.length_take_of_le (by omega)
  unfold removalSpan
  dsimp only
  split
  · refine ⟨source.take s.start, [], [], source.drop s.stop, hcut, by simpa using hbefore, ?_, ?_⟩
    · rw [hbefore]
      rfl
    · exact ⟨by decide +kernel, by decide +kernel, List.not_mem_nil, .inl rfl, .inl rfl⟩
  · rename_i hblank
    obtain ⟨hleft, hright⟩ : _ = [] ∧ _ = [] := by
      simpa only [Bool.or_eq_true, Bool.not_eq_true', not_or, Bool.not_eq_false, List.isEmpty_iff] using hblank
    obtain ⟨u, hu, hstart⟩ := exists_line (source.take s.start).reverse
    obtain ⟨v, hv, hend⟩ := exists_line (source.drop s.stop)
    have hline := notMem_line (source.take s.start).reverse
    generalize (source.take s.start).reverse.takeWhile _ = l at *
    generalize (source.drop s.stop).takeWhile _ = r at *
    have hfront : source.take s.start = u.reverse ++ l.reverse := by
      rw [← List.reverse_append, ← hu, List.reverse_reverse]
    have hlength : u.length + l.length = s.start := by
      rw [← hbefore, hfront]
      simp
    have hsize := congrArg List.length hv
    rw [List.length_drop, List.length_append] at hsize
    have hleft' : l.reverse = [] ∨ u.reverse = [] ∨ u.reverse.getLast? = some ('\n' : UInt8) := by
      right
      simpa using hstart
    have hline' : ('\n' : UInt8) ∉ l.reverse := by simpa using hline
    rw [hfront, hv] at hcut
    rcases hend with rfl | hbreak
    · refine ⟨u.reverse, l.reverse, r, [], by rw [List.append_assoc] at hcut; exact hcut, ?_, ?_,
        hleft, hright, hline', hleft', .inr (.inl rfl)⟩
      · simpa using hlength
      · rw [List.length_nil] at hsize
        rw [if_neg (by omega), List.length_reverse, List.length_reverse]
        congr 1
        omega
    · obtain ⟨v, rfl⟩ := List.head?_eq_some_iff.1 hbreak
      refine ⟨u.reverse, l.reverse, r ++ [('\n' : UInt8)], v, ?_, ?_, ?_,
        hleft, ?_, hline', hleft', .inr (.inr (by simp))⟩
      · rw [List.append_assoc] at hcut
        rwa [List.append_assoc]
      · simpa using hlength
      · rw [List.length_cons] at hsize
        rw [if_pos (by omega), List.length_reverse, List.length_reverse, List.length_append]
        congr 1
        omega
      · rw [Text.trimSpace_append_form (by decide), hright]

/-! ## Spans that are removed -/

/-- The edit that removes a tag. -/
def removalEdit (src : Text) (tok : Token) : Edit :=
  let s := removalSpan src ⟨tok.start, tok.stop⟩
  ⟨s.start, s.stop, [], unusedAssign.info.code, 0⟩

/-- A byte in the middle of a text. -/
theorem mem_middle {u t w : Text} {i : Nat} {b : UInt8} (h : (u ++ (t ++ w))[i]? = some b)
    (hlo : u.length ≤ i) (hhi : i < u.length + t.length) : b ∈ t := by
  rw [List.getElem?_append_right hlo, List.getElem?_append_left (by omega)] at h
  exact List.mem_of_getElem? h

section Tokens

variable {src : Text} {tok tok' : Token}

/-- A tag starts and ends in a brace. -/
theorem braces_of_tag (htok : tok ∈ tokens src) (hkind : tok.kind = .tag) :
    src[tok.start]? = some ('{' : UInt8) ∧ src[tok.stop - 1]? = some ('}' : UInt8) := by
  obtain ⟨d, inner, htext, hslice⟩ := exists_delimited htok (by rw [hkind]; exact id)
  have hstop : tok.stop = tok.start + inner.length + 4 := by
    rw [htext, Token.stop_delimited, Token.start_delimited]
  have hne : d.opener ++ (inner ++ d.closer) ≠ [] := List.cons_ne_nil _ _
  obtain ⟨x, y, hx, hsrc⟩ := standsAt_of_slice hne hslice
  rw [← hx] at hstop ⊢
  constructor
  · rw [hsrc, List.getElem?_append_right (Nat.le_refl _), Nat.sub_self]
    rfl
  · have hfront : src = (x ++ (d.opener ++ (inner ++ [d.closeMark]))) ++ (('}' : UInt8) :: y) := by
      rw [hsrc]
      simp only [Delimiter.closer, List.append_assoc, List.cons_append, List.nil_append]
    have hplace : tok.stop - 1 = (x ++ (d.opener ++ (inner ++ [d.closeMark]))).length := by
      simp only [List.length_append, Delimiter.length_opener, List.length_singleton]
      omega
    rw [hplace, hfront, List.getElem?_append_right (Nat.le_refl _), Nat.sub_self]
    rfl

/-- What is removed with a tag of a template. -/
theorem exists_removal (htok : tok ∈ tokens src) :
    ∃ u l r v, src = u ++ (l ++ (Text.slice src tok.start tok.stop ++ (r ++ v))) ∧
      u.length + l.length = tok.start ∧ (removalEdit src tok).start = u.length ∧
      (removalEdit src tok).stop = tok.stop + r.length ∧
      tok.stop + r.length + v.length = src.length ∧ Margins u l r v := by
  obtain ⟨_, hplaced, hle⟩ := (tiles_tokens src).follows.placed htok
  have hlt := hplaced.start_lt_stop
  obtain ⟨u, l, r, v, hsrc, hstart, hspan, hmargins⟩ :=
    @exists_margins src ⟨tok.start, tok.stop⟩ (Nat.le_of_lt hlt) hle
  have hslice : (Text.slice src tok.start tok.stop).length = tok.stop - tok.start := by
    unfold Text.slice
    rw [List.length_take, List.length_drop]
    omega
  refine ⟨u, l, r, v, hsrc, by simpa using hstart, ?_, ?_, ?_, hmargins⟩
  · rw [removalEdit, hspan]
  · rw [removalEdit, hspan]
  · have hlength := congrArg List.length hsrc
    simp only [List.length_append, hslice] at hlength hstart
    omega

/-- **An edit that removes a tag** takes it out with its margins. -/
theorem takenOutBy_removalEdit (htok : tok ∈ tokens src) (hkind : tok.kind = .tag)
    (hrole : tagRole tok.name = .inline) : tok.TakenOutBy src (removalEdit src tok) := by
  obtain ⟨u, l, r, v, hsrc, hstart, hfirst, hlast, hend, hmargins⟩ := exists_removal htok
  have hlt := ((tiles_tokens src).follows.placed htok).2.1.start_lt_stop
  have hslice : (Text.slice src tok.start tok.stop).length = tok.stop - tok.start := by
    have hlength := congrArg List.length hsrc
    simp only [List.length_append] at hlength
    omega
  refine ⟨rfl, u, l, _, r, v, hsrc, ⟨hkind, hrole, by omega, by omega, ?_, ?_, ?_⟩, hfirst, ?_⟩
  · exact fun b hb => Text.ne_brace_of_trimSpace hmargins.left_blank hb
  · exact fun b hb => (Text.ne_brace_of_trimSpace hmargins.right_blank hb).1
  · rcases hmargins.left_start with hl | hu | hu
    · exact .inl hl
    · right
      rw [hu]
      nofun
    · right
      rw [hu]
      decide
  · simp only [List.length_append]
    omega

/-- A tag behind another one starts behind what is removed with that one. -/
theorem removalEdit_stop_le_start (htok : tok ∈ tokens src) (htok' : tok' ∈ tokens src)
    (hkind' : tok'.kind = .tag) (hle : tok.stop ≤ tok'.start) : (removalEdit src tok).stop ≤ tok'.start := by
  obtain ⟨u, l, r, v, hsrc, hstart, _, hlast, hend, hmargins⟩ := exists_removal htok
  have hbrace := (braces_of_tag htok' hkind').1
  refine Nat.le_of_not_lt fun hlt => ?_
  have hmem : ('{' : UInt8) ∈ r := by
    have hfront : src = (u ++ (l ++ Text.slice src tok.start tok.stop)) ++ (r ++ v) := by
      rw [List.append_assoc, List.append_assoc]
      exact hsrc
    have hlength := congrArg List.length hfront
    simp only [List.length_append] at hlength
    rw [hfront] at hbrace
    refine mem_middle hbrace ?_ ?_
    · simp only [List.length_append]
      omega
    · simp only [List.length_append]
      omega
  exact (Text.ne_brace_of_trimSpace hmargins.right_blank hmem).1 rfl

/-- Nothing but white space is removed with a tag. -/
theorem slices_removalEdit (htok : tok ∈ tokens src) :
    (removalEdit src tok).start ≤ tok.start ∧ tok.stop ≤ (removalEdit src tok).stop ∧
      Text.trimSpace (Text.slice src (removalEdit src tok).start tok.start) = [] ∧
      Text.trimSpace (Text.slice src tok.stop (removalEdit src tok).stop) = [] := by
  obtain ⟨u, l, r, v, hsrc, hstart, hfirst, hlast, hend, hmargins⟩ := exists_removal htok
  have hlt := ((tiles_tokens src).follows.placed htok).2.1.start_lt_stop
  have hleft : Text.slice src u.length tok.start = l := by
    conv_lhs => rw [← hstart, hsrc]
    exact Text.slice_append _ _ _
  have hright : Text.slice src tok.stop (tok.stop + r.length) = r := by
    generalize Text.slice src tok.start tok.stop = t at hsrc
    have hfront : src = (u ++ (l ++ t)) ++ (r ++ v) := by
      rw [List.append_assoc, List.append_assoc]
      exact hsrc
    have hstop : (u ++ (l ++ t)).length = tok.stop := by
      have hlength := congrArg List.length hfront
      simp only [List.length_append] at hlength ⊢
      omega
    rw [← hstop, hfront]
    exact Text.slice_append _ _ _
  rw [hfirst, hlast, hleft, hright]
  exact ⟨by omega, by omega, hmargins.left_blank, hmargins.right_blank⟩

/-- **Tags are removed apart from each other.** -/
theorem removalEdit_stop_le (htok : tok ∈ tokens src) (hkind : tok.kind = .tag) (htok' : tok' ∈ tokens src)
    (hkind' : tok'.kind = .tag) (hle : tok.stop ≤ tok'.start) :
    (removalEdit src tok).stop ≤ (removalEdit src tok').start := by
  have hlt := ((tiles_tokens src).follows.placed htok).2.1.start_lt_stop
  have hlt' := ((tiles_tokens src).follows.placed htok').2.1.start_lt_stop
  have hbehind := removalEdit_stop_le_start htok htok' hkind' hle
  obtain ⟨u, l, r, v, hsrc, hstart, _, hlast, hend, hmargins⟩ := exists_removal htok
  obtain ⟨u', l', r', v', hsrc', hstart', hfirst', _, hend', hmargins'⟩ := exists_removal htok'
  -- the left margin of the second tag holds no closer and no line feed
  have hcloser : tok.stop ≤ u'.length := by
    refine Nat.le_of_not_lt fun hlt' => ?_
    have hbrace := (braces_of_tag htok hkind).2
    rw [hsrc'] at hbrace
    have hmem := mem_middle hbrace (by omega) (by omega)
    exact (Text.ne_brace_of_trimSpace hmargins'.left_blank hmem).2 rfl
  rw [hfirst']
  refine Nat.le_of_not_lt fun hlt' => ?_
  rcases hmargins.right_stop with rfl | rfl | hbreak
  · rw [List.length_nil] at hlast
    omega
  · rw [List.length_nil] at hend
    omega
  · obtain ⟨line, rfl⟩ := List.getLast?_eq_some_iff.1 hbreak
    have hfront : src = (u ++ (l ++ (Text.slice src tok.start tok.stop ++ line))) ++ ([('\n' : UInt8)] ++ v) := by
      simp only [List.append_assoc]
      simpa only [List.append_assoc] using hsrc
    have hlength := congrArg List.length hfront
    simp only [List.length_append, List.length_singleton] at hlength hlast hend
    have hplace : (u ++ (l ++ (Text.slice src tok.start tok.stop ++ line))).length =
        tok.stop + line.length := by
      simp only [List.length_append]
      omega
    have hbyte : src[tok.stop + line.length]? = some ('\n' : UInt8) := by
      rw [hfront, ← hplace, List.getElem?_append_right (Nat.le_refl _), Nat.sub_self]
      rfl
    rw [hsrc'] at hbyte
    exact hmargins'.left_line (mem_middle hbyte (by omega) (by omega))

end Tokens

/-! ## What the check asks for -/

/-- The fix that removes an assignment. -/
def removal (f : SourceFile) (h : Head) : PendingFix :=
  ⟨f.path, unusedAssign.info.code, [.edit (removalSpan f.source ⟨h.start, h.stop⟩).toRange []]⟩

/-- An assignment between delimiters of its own that is reported. -/
structure Reported (f : SourceFile) (h : Head) : Prop where
  mem : h ∈ (parse f.source).root.walk fun _ => true
  kind : h.kind = .tag
  name : h.name = "assign"
  inLiquid : h.inLiquid = false
  offense : ∃ name, unreadOffense f h name ∈ (visitAlone unusedAssign f).offenses

/-- A node that is kept assigns what its head assigns. -/
theorem exists_head_of_kept {src : Text} {m n : Source.Node}
    (hm : m ∈ (Source.Node.ofLiquid src.length (parse src).root).walk) (hn : n ∈ kept m) {name : Text}
    (hassigned : assigned? n = some name) :
    ∃ h ∈ (parse src).root.walk (fun _ => true), n.shape = .liquid h ∧ n.span = ⟨h.start, h.stop⟩ ∧
      h.kind = .tag ∧ h.name = "assign" := by
  obtain ⟨kind, hkind, rfl⟩ := List.mem_map.1 hn
  obtain ⟨h, hh, hshape, hspan⟩ := Source.Node.exists_head_of_walk hm
  refine ⟨h, hh, hshape, hspan, ?_⟩
  have hnode : bare m = nodeOf h := by
    unfold bare nodeOf
    rw [hshape, hspan]
  have hassigned : assigned? (nodeOf h) = some name := by
    rw [← hnode]
    exact hassigned
  have hkept : nodeOf h ∈ kept (nodeOf h) := by
    rw [← hnode]
    exact List.mem_map.2 ⟨kind, hkind, rfl⟩
  have htag : h.kind = .variable ∨ h.kind = .tag := by
    cases hk : h.kind with
    | document => rw [kept_of_other (.inl hk)] at hkept; cases hkept
    | raw => rw [kept_of_other (.inr hk)] at hkept; cases hkept
    | «variable» => exact .inl rfl
    | tag => exact .inr rfl
  rw [assigned?_nodeOf htag] at hassigned
  unfold target? at hassigned
  split at hassigned
  · assumption
  · cases hassigned

/-- **A fix removes an assignment that is reported.** -/
theorem exists_reported {f : SourceFile} (hf : Spacing.IsTemplate f) {p : PendingFix}
    (hp : p ∈ (visitAlone unusedAssign f).fixes) : ∃ h, Reported f h ∧ p = removal f h := by
  obtain ⟨visits, hvisits, hnodes, hseen⟩ := exists_fileVisits hf []
  have hvisit : visitAlone unusedAssign f = raiseAll (raise? {} [⟨f, .ofFile f⟩] unusedAssign.info f) {}
      (unusedReports f (visitedNodes (visits.reverse ++ []))) := by
    unfold visitAlone
    rw [visitFile_single onlyReports_unusedAssign, hvisits, reportsOn_append, reportsOn_nodes hnodes]
    exact congrArg _ (List.append_nil _)
  rw [hvisit] at hp
  obtain ⟨r, hr, o, ho, hraised⟩ := exists_offense_of_fix rfl hp
  obtain ⟨n, hn, hreport⟩ := List.mem_filterMap.1 hr
  rw [hseen] at hn
  obtain ⟨m, hm, hn⟩ := List.mem_flatMap.1 hn
  have hm : m ∈ (Source.Node.ofLiquid f.source.length (parse f.source).root).walk := by
    have hm := List.mem_reverse.1 hm
    exact List.mem_reverse.1 ((List.takeWhile_sublist _).subset hm)
  cases hassigned : assigned? n with
  | none =>
    rw [hassigned] at hreport
    exact nomatch hreport
  | some name =>
    rw [hassigned] at hreport
    dsimp only at hreport
    split at hreport
    · exact nomatch hreport
    · obtain rfl := Option.some.inj hreport
      obtain ⟨h, hh, hshape, hspan, hkind, hname⟩ := exists_head_of_kept hm hn hassigned
      have hline : inLiquid n = h.inLiquid := by
        unfold inLiquid
        rw [hshape]
      have hplace : (unusedReport f n name).place = (⟨h.start, h.stop⟩ : Span).toRange :=
        congrArg Span.toRange hspan
      unfold raise? at hraised
      rw [hplace] at hraised
      dsimp only at hraised
      split at hraised
      · exact nomatch hraised
      · obtain ⟨rfl, hfix⟩ := Prod.mk.inj (Option.some.inj hraised)
        unfold unusedReport at hfix ho
        rw [hline, hspan] at hfix
        rw [hline] at ho
        cases hinside : h.inLiquid with
        | true =>
          rw [hinside] at hfix
          exact nomatch hfix
        | false =>
          rw [hinside] at hfix ho
          refine ⟨h, ⟨hh, hkind, hname, hinside, name, ?_⟩, (Option.some.inj hfix).symm⟩
          unfold unreadOffense
          rw [hinside, hvisit]
          exact ho

/-- The tag of a head. -/
structure TagOf (src : Text) (h : Head) (tok : Token) : Prop where
  mem : tok ∈ tokens src
  kind : tok.kind = .tag
  name : tok.name = h.name
  start : tok.start = h.start
  stop : tok.stop = h.openEnd

/-- A tag that is no line stands between delimiters. -/
theorem exists_tagOf {src : Text} {h : Head} (hh : h ∈ (parse src).root.walk fun _ => true)
    (hkind : h.kind = .tag) (hline : h.inLiquid = false) : ∃ tok, TagOf src h tok := by
  have hopening : (⟨.opening, h.name, h.start, h.openEnd⟩ : Piece) ∈ (parse src).root.braces := by
    refine List.mem_flatMap.2 ⟨h, hh, ?_⟩
    rw [Spacing.braces_of_tag hkind hline]
    exact List.mem_cons_self ..
  obtain ⟨_, tok, htok, hpiece⟩ := exists_token_of_braces hopening
  have hstart := congrArg Piece.start hpiece
  have hstop := congrArg Piece.stop hpiece
  rw [Token.start_piece] at hstart
  rw [Token.stop_piece] at hstop
  unfold Token.piece at hpiece
  split at hpiece
  · cases hpiece
  · cases hpiece
  · cases hpiece
  · rename_i hkind
    split at hpiece
    · cases hpiece
    · exact ⟨tok, htok, hkind, congrArg Piece.name hpiece, hstart, hstop⟩

section Reports

variable {f : SourceFile} {h : Head} {tok : Token}

/-- A reported assignment is removed by the edit of its tag. -/
theorem Reported.removal_eq (hh : Reported f h) (htok : TagOf f.source h tok) :
    tagRole tok.name = .inline ∧ removalSpan f.source ⟨h.start, h.stop⟩ =
      ⟨(removalEdit f.source tok).start, (removalEdit f.source tok).stop⟩ := by
  have hrole : tagRole h.name = .inline := by
    rw [hh.name]
    decide
  have hstop := stop_of_inline hh.mem hrole
  rw [htok.name]
  refine ⟨hrole, ?_⟩
  unfold removalEdit
  rw [htok.start, htok.stop, hstop]

/-- The fixes of a file, one for each of some reported assignments. -/
theorem exists_fixes (hf : Spacing.IsTemplate f) :
    ∃ gone : List Head, (visitAlone unusedAssign f).fixes = gone.map (removal f) ∧
      ∀ h ∈ gone, Reported f h :=
  exists_eq_map fun _ hp => exists_reported hf hp

/-- Whether the token is the tag of one of the heads. -/
def isTagOf (gone : List Head) (tok : Token) : Bool :=
  tok.kind = .tag && gone.any fun h => h.start = tok.start

/-- The tags of some heads. -/
def tagsOf (src : Text) (gone : List Head) : List Token := (codes (tokens src)).filter (isTagOf gone)

theorem mem_tagsOf {gone : List Head} (hgone : ∀ h ∈ gone, Reported f h) :
    tok ∈ tagsOf f.source gone ↔ ∃ h ∈ gone, TagOf f.source h tok := by
  constructor
  · intro htok
    obtain ⟨hcode, htest⟩ := List.mem_filter.1 htok
    obtain ⟨hkind, hany⟩ := Bool.and_eq_true_iff.1 htest
    obtain ⟨h, hh, hstart⟩ := List.any_eq_true.1 hany
    obtain ⟨tok', htok'⟩ := exists_tagOf (hgone h hh).mem (hgone h hh).kind (hgone h hh).inLiquid
    have hsame : tok' = tok := eq_of_start_eq (tiles_tokens f.source).pairwise htok'.mem
      (List.mem_filter.1 hcode).1 (htok'.start.trans (of_decide_eq_true hstart))
    exact ⟨h, hh, hsame ▸ htok'⟩
  · rintro ⟨h, hh, htok⟩
    refine List.mem_filter.2 ⟨List.mem_filter.2 ⟨htok.mem, ?_⟩, ?_⟩
    · rw [htok.kind]
      rfl
    · rw [isTagOf, htok.kind]
      exact List.any_eq_true.2 ⟨h, hh, decide_eq_true htok.start.symm⟩

/-- The edits that remove some assignments, from left to right. -/
def removalEdits (src : Text) (gone : List Head) : List Edit := (tagsOf src gone).map (removalEdit src)

/-- **Removals stand one behind the other.** -/
theorem inOrder_removalEdits (src : Text) (gone : List Head) :
    InOrder 0 (removalEdits src gone) src.length ∧
      (removalEdits src gone).Pairwise fun a b => a.start < b.start := by
  have hmem (tok : Token) (htok : tok ∈ tagsOf src gone) : tok ∈ tokens src ∧ tok.kind = .tag := by
    obtain ⟨hcode, htest⟩ := List.mem_filter.1 htok
    exact ⟨(List.mem_filter.1 hcode).1, of_decide_eq_true (Bool.and_eq_true_iff.1 htest).1⟩
  have hplace (tok : Token) (htok : tok ∈ tagsOf src gone) :
      (removalEdit src tok).start < (removalEdit src tok).stop ∧ (removalEdit src tok).stop ≤ src.length := by
    obtain ⟨u, l, r, v, _, hstart, hfirst, hlast, hend, _⟩ := exists_removal (hmem tok htok).1
    have hlt := ((tiles_tokens src).follows.placed (hmem tok htok).1).2.1.start_lt_stop
    omega
  have happart : (removalEdits src gone).Pairwise fun a b => a.stop ≤ b.start := by
    refine List.pairwise_map.2 ?_
    refine (((tiles_tokens src).follows.apart.filter _).filter _).imp_of_mem fun htok htok' hle => ?_
    obtain ⟨htok, hkind⟩ := hmem _ htok
    obtain ⟨htok', hkind'⟩ := hmem _ htok'
    exact removalEdit_stop_le htok hkind htok' hkind' hle
  have hedits (e : Edit) (he : e ∈ removalEdits src gone) : e.start < e.stop ∧ e.stop ≤ src.length := by
    obtain ⟨tok, htok, rfl⟩ := List.mem_map.1 he
    exact hplace tok htok
  constructor
  · refine inOrder_of_pairwise happart (fun e he => ?_) (Nat.zero_le _)
    obtain ⟨hlt, hle⟩ := hedits e he
    exact ⟨Nat.zero_le _, Nat.le_of_lt hlt, hle⟩
  · exact happart.imp_of_mem fun ha _ hle => Nat.lt_of_lt_of_le (hedits _ ha).1 hle

/-- The fixes come to these edits. -/
theorem mem_removalEdits {gone : List Head} (hgone : ∀ h ∈ gone, Reported f h) (e : Edit) :
    e ∈ removalEdits f.source gone ↔
      e ∈ (gone.map fun h => removalSpan f.source ⟨h.start, h.stop⟩).map
        fun s => ⟨s.start, s.stop, [], unusedAssign.info.code, 0⟩ := by
  rw [removalEdits, List.map_map, List.mem_map, List.mem_map]
  constructor
  · rintro ⟨tok, htok, rfl⟩
    obtain ⟨h, hh, htag⟩ := (mem_tagsOf hgone).1 htok
    refine ⟨h, hh, ?_⟩
    rw [Function.comp_apply, ((hgone h hh).removal_eq htag).2]
    rfl
  · rintro ⟨h, hh, rfl⟩
    obtain ⟨tok, htok⟩ := exists_tagOf (hgone h hh).mem (hgone h hh).kind (hgone h hh).inLiquid
    refine ⟨tok, (mem_tagsOf hgone).2 ⟨h, hh, htok⟩, ?_⟩
    rw [Function.comp_apply, ((hgone h hh).removal_eq htok).2]
    rfl

end Reports

/-! ## What is taken away -/

/-- The names and markups that a token is seen by, told by what it says. -/
def keyEntries : TokenKind × Text × Text → List (Text × Text)
  | (.text, _, _) | (.unterminated _, _, _) => []
  | (.variable, name, markup) => [(name, markup)]
  | (.tag, name, markup) =>
    match tagRole name with
    | .closes _ => []
    | .lines => (name, markup) :: lineEntries markup
    | .opens | .nameless | .branch | .inline | .unknown => [(name, markup)]

theorem flatMap_seen_entry (toks : List Token) :
    toks.flatMap (Token.seen Head.entry) = (toks.map Token.key).flatMap keyEntries := by
  rw [List.flatMap_map]
  refine List.flatMap_congr fun tok _ => ?_
  unfold Token.seen Token.key
  cases tok.kind with
  | text | unterminated _ | «variable» => rfl
  | tag =>
    unfold keyEntries
    dsimp only
    cases tagRole tok.name <;> rfl

theorem flatMap_filter {α β : Type} (p : α → Bool) (g : α → List β) (l : List α) :
    (l.filter p).flatMap g = l.flatMap fun a => if p a then g a else [] := by
  induction l with
  | nil => rfl
  | cons a l ih =>
    rw [List.filter_cons, List.flatMap_cons, ← ih]
    cases p a <;> rfl

/-- Texts are not seen. -/
theorem flatMap_codes (look : Head → List (Text × Text)) (toks : List Token) :
    toks.flatMap (Token.seen look) = (codes toks).flatMap (Token.seen look) := by
  rw [codes, flatMap_filter]
  refine List.flatMap_congr fun tok _ => ?_
  cases hkind : tok.kind with
  | text =>
    unfold Token.seen
    rw [hkind]
    rfl
  | unterminated _ | «variable» | tag => rfl

/-- Whether edits take the tag of a node away. -/
def takenAway (edits : List Edit) (h : Head) : Bool :=
  h.kind = .tag && !h.inLiquid && edits.any fun e => e.start ≤ h.start && h.openEnd ≤ e.stop

/-- What removes a tag takes no other tag away. -/
theorem eq_of_removalEdit {src : Text} {tok tok' : Token} (htok : tok ∈ tokens src) (hkind : tok.kind = .tag)
    (htok' : tok' ∈ tokens src) (hkind' : tok'.kind = .tag) (hstart : (removalEdit src tok).start ≤ tok'.start)
    (hstop : tok'.stop ≤ (removalEdit src tok).stop) : tok' = tok := by
  have hlt := ((tiles_tokens src).follows.placed htok').2.1.start_lt_stop
  obtain ⟨_, _, _, _, _, _, _, hlast', _, _⟩ := exists_removal htok'
  refine Classical.byContradiction fun hne => ?_
  have : Std.Symm fun t u : Token => t.stop ≤ u.start ∨ u.stop ≤ t.start := ⟨fun _ _ h => h.symm⟩
  have hapart : (tokens src).Pairwise fun t u : Token => t.stop ≤ u.start ∨ u.stop ≤ t.start :=
    (tiles_tokens src).follows.apart.imp fun h => .inl h
  rcases hapart.forall htok' htok hne with hle | hle
  · have := removalEdit_stop_le htok' hkind' htok hkind hle
    omega
  · have := removalEdit_stop_le_start htok htok' hkind' hle
    omega

section Applied

variable {f : SourceFile} {gone : List Head} {applied : List Edit}
variable (hgone : ∀ h ∈ gone, Reported f h)
variable (happlied : ∀ e, e ∈ removalEdits f.source gone ↔ ∃ a ∈ applied, a.plain = e)

include hgone happlied

/-- **The tags that are taken away** are those of reported assignments. -/
theorem takenAway_iff {h : Head} {tok : Token} (htok : TagOf f.source h tok) (hkind : h.kind = .tag)
    (hline : h.inLiquid = false) : takenAway applied h = true ↔ tok ∈ tagsOf f.source gone := by
  unfold takenAway
  rw [hkind, hline]
  simp only [decide_true, Bool.not_false, Bool.true_and, List.any_eq_true, Bool.and_eq_true, decide_eq_true_eq]
  constructor
  · rintro ⟨a, ha, hstart, hstop⟩
    obtain ⟨tok', htok', heq⟩ := List.mem_map.1 ((happlied a.plain).2 ⟨a, ha, rfl⟩)
    obtain ⟨h', hh', htag⟩ := (mem_tagsOf hgone).1 htok'
    have hsame : tok = tok' := by
      refine eq_of_removalEdit htag.mem htag.kind htok.mem htok.kind ?_ ?_
      · rw [heq, htok.start]
        exact hstart
      · rw [heq, htok.stop]
        exact hstop
    rwa [hsame]
  · intro hmem
    obtain ⟨a, ha, heq⟩ := (happlied _).1 (List.mem_map_of_mem hmem)
    obtain ⟨u, l, r, v, _, hstart, hfirst, hlast, _⟩ := exists_removal htok.mem
    rw [← heq] at hfirst hlast
    refine ⟨a, ha, ?_, ?_⟩
    · rw [← htok.start, ← hstart, show a.start = u.length from hfirst]
      exact Nat.le_add_right _ _
    · rw [← htok.stop, show a.stop = tok.stop + r.length from hlast]
      exact Nat.le_add_right _ _

/-- A token that stays is seen as it was, and one that is taken away is not seen. -/
theorem seen_eq {tok : Token} (htok : tok ∈ codes (tokens f.source)) :
    tok.seen (fun h => if takenAway applied h then [] else h.entry) =
      if isTagOf gone tok then [] else tok.seen Head.entry := by
  have hmem : tok ∈ tokens f.source := (List.mem_filter.1 htok).1
  cases hkind : tok.kind with
  | text | unterminated _ | «variable» =>
    have hnot : isTagOf gone tok = false := by
      unfold isTagOf
      rw [hkind]
      rfl
    unfold Token.seen
    rw [hkind, hnot]
    rfl
  | tag =>
    have htaken : takenAway applied (tok.head .tag) = isTagOf gone tok := by
      have hiff := takenAway_iff hgone happlied (h := tok.head .tag) ⟨hmem, hkind, rfl, rfl, rfl⟩ rfl
        (inLiquid_tokens hmem)
      rw [Bool.eq_iff_iff, hiff, tagsOf, List.mem_filter]
      exact and_iff_right htok
    have hblock : takenAway applied { tok.head .tag with block := true } = isTagOf gone tok := htaken
    unfold Token.seen
    rw [hkind]
    dsimp only
    rw [htaken, hblock]
    cases hgoneTag : isTagOf gone tok with
    | false => rfl
    | true =>
      obtain ⟨h, hh, htag⟩ := (mem_tagsOf hgone).1 (List.mem_filter.2 ⟨htok, hgoneTag⟩)
      rw [((hgone h hh).removal_eq htag).1]

/-- **What is left of a template** that has a closer for each opener: the names and the markups of its nodes,
in order, but for those of the tags that are taken away. -/
theorem entries_patch (hterm : Terminated (tokens f.source)) :
    let corrected := patch f.source 0 f.source.length (removalEdits f.source gone)
    ((parse corrected).root.walk fun _ => true).flatMap Head.entry =
      (((parse f.source).root.walk fun _ => true).filter fun h => !takenAway applied h).flatMap Head.entry := by
  intro corrected
  have hkeys : keys (tokens corrected) =
      ((codes (tokens f.source)).filter fun tok => !isTagOf gone tok).map Token.key := by
    refine keys_patch hterm (fun tok htok hgoneTag => ?_) (inOrder_removalEdits f.source gone).1
    obtain ⟨h, hh, htag⟩ := (mem_tagsOf hgone).1 (List.mem_filter.2 ⟨htok, hgoneTag⟩)
    exact takenOutBy_removalEdit htag.mem htag.kind ((hgone h hh).removal_eq htag).1
  have hblind : Blind fun h => if takenAway applied h then [] else h.entry :=
    ⟨fun _ _ => rfl, fun _ _ => rfl⟩
  have hsees : SeesLines fun h => if takenAway applied h then [] else h.entry := by
    intro h hh
    have hstays : takenAway applied h = false := by
      unfold takenAway
      rcases hh with hline | hkind
      · rw [hline]
        simp
      · rw [hkind]
        rfl
    show (if takenAway applied h then [] else h.entry) = h.entry
    rw [hstays]
    rfl
  have hroot (h : Head) (hkind : h.kind = .document) :
      (if takenAway applied h then [] else h.entry) = [] := by
    rw [entry_of_document hkind, ite_self]
  calc ((parse corrected).root.walk fun _ => true).flatMap Head.entry
    _ = (tokens corrected).flatMap (Token.seen Head.entry) :=
      flatMap_walk_parse blind_entry (fun _ _ => rfl) corrected fun _ => entry_of_document
    _ = (keys (tokens corrected)).flatMap keyEntries := by rw [flatMap_codes, flatMap_seen_entry]; rfl
    _ = ((codes (tokens f.source)).filter fun tok => !isTagOf gone tok).flatMap (Token.seen Head.entry) := by
      rw [hkeys, flatMap_seen_entry]
    _ = (codes (tokens f.source)).flatMap
          (Token.seen fun h => if takenAway applied h then [] else h.entry) := by
      rw [flatMap_filter]
      refine List.flatMap_congr fun tok htok => ?_
      rw [seen_eq hgone happlied htok]
      cases isTagOf gone tok <;> rfl
    _ = ((parse f.source).root.walk fun _ => true).flatMap
          (fun h => if takenAway applied h then [] else h.entry) := by
      rw [← flatMap_codes, flatMap_walk_parse hblind hsees _ hroot]
    _ = _ := by
      rw [flatMap_filter]
      refine List.flatMap_congr fun h _ => ?_
      cases takenAway applied h <;> rfl

/-- A tag that is taken away is the tag of a reported assignment. -/
theorem exists_gone {h : Head} (hh : h ∈ (parse f.source).root.walk fun _ => true)
    (htaken : takenAway applied h = true) :
    ∃ h' ∈ gone, h'.start = h.start ∧ h'.stop = h.stop ∧ h'.name = h.name ∧ h.inLiquid = false := by
  have htag : h.kind = .tag ∧ h.inLiquid = false := by
    unfold takenAway at htaken
    simpa using (Bool.and_eq_true_iff.1 htaken).1
  obtain ⟨tok, htok⟩ := exists_tagOf hh htag.1 htag.2
  have hmem := (takenAway_iff hgone happlied htok htag.1 htag.2).1 htaken
  obtain ⟨h', hh', htok'⟩ := (mem_tagsOf hgone).1 hmem
  have hrole := ((hgone h' hh').removal_eq htok').1
  refine ⟨h', hh', htok'.start.symm.trans htok.start, ?_, htok'.name.symm.trans htok.name, htag.2⟩
  rw [stop_of_inline hh (by rw [← htok.name]; exact hrole),
    stop_of_inline (hgone h' hh').mem (by rw [← htok'.name]; exact hrole), ← htok.stop, htok'.stop]

/-- **The fixes of the tags that are taken away** are those of the reported assignments. -/
theorem mem_removals_iff {p : PendingFix} :
    p ∈ gone.map (removal f) ↔
      ∃ h ∈ (parse f.source).root.walk fun _ => true, takenAway applied h = true ∧ p = removal f h := by
  constructor
  · intro hp
    obtain ⟨h, hh, rfl⟩ := List.mem_map.1 hp
    have hreported := hgone h hh
    obtain ⟨tok, htok⟩ := exists_tagOf hreported.mem hreported.kind hreported.inLiquid
    have hmem := (mem_tagsOf hgone).2 ⟨h, hh, htok⟩
    exact ⟨h, hreported.mem,
      (takenAway_iff hgone happlied htok hreported.kind hreported.inLiquid).2 hmem, rfl⟩
  · rintro ⟨h, hh, htaken, rfl⟩
    obtain ⟨h', hh', hstart, hstop, _⟩ := exists_gone hgone happlied hh htaken
    refine List.mem_map.2 ⟨h', hh', ?_⟩
    unfold removal
    rw [hstart, hstop]

/-- A tag that is taken away is an assignment that the check reports. -/
theorem exists_offense {h : Head} (hh : h ∈ (parse f.source).root.walk fun _ => true)
    (htaken : takenAway applied h = true) :
    h.name = "assign" ∧ ∃ name, unreadOffense f h name ∈ (visitAlone unusedAssign f).offenses := by
  obtain ⟨h', hh', hstart, hstop, hname, hline⟩ := exists_gone hgone happlied hh htaken
  obtain ⟨name, hoffense⟩ := (hgone h' hh').offense
  refine ⟨hname.symm.trans (hgone h' hh').name, name, ?_⟩
  unfold unreadOffense at hoffense ⊢
  rwa [hstart, hstop, (hgone h' hh').inLiquid, ← hline] at hoffense

/-- **Each edit takes a tag away**, and with it at most white space beside it. -/
theorem exists_takenAway {e : Edit} (he : e ∈ applied) :
    e.text = [] ∧ ∃ h ∈ (parse f.source).root.walk fun _ => true, takenAway [e] h = true ∧
      Text.trimSpace (Text.slice f.source e.start h.start) = [] ∧
      Text.trimSpace (Text.slice f.source h.stop e.stop) = [] := by
  obtain ⟨tok, htok, heq⟩ := List.mem_map.1 ((happlied e.plain).2 ⟨e, he, rfl⟩)
  obtain ⟨h, hh, htag⟩ := (mem_tagsOf hgone).1 htok
  have hrole := ((hgone h hh).removal_eq htag).1
  have hstop := stop_of_inline (hgone h hh).mem (by rw [← htag.name]; exact hrole)
  obtain ⟨hle, hle', hleft, hright⟩ := slices_removalEdit htag.mem
  rw [heq, htag.start] at hleft hle
  rw [heq, htag.stop] at hright hle'
  refine ⟨congrArg Edit.text heq.symm, h, (hgone h hh).mem, ?_, hleft, ?_⟩
  · unfold takenAway
    rw [(hgone h hh).kind, (hgone h hh).inLiquid]
    simpa using ⟨hle, hle'⟩
  · rw [hstop]
    exact hright

end Applied

/-- A template that the parser does not warn of has a closer for each opener. -/
theorem terminated_of_warnings {src : Text}
    (h : ∀ w ∈ (parse src).warnings, ∀ d, w.message ≠ (Defect.unterminated d).message) :
    Terminated (tokens src) := by
  intro tok htok d hkind
  refine h ((Defect.unterminated d).at tok.start) ?_ d rfl
  refine unterminatedWarnings_subset src (List.mem_filterMap.2 ⟨tok, htok, ?_⟩)
  rw [hkind]

/-- **The removal of assignments removes nothing else.**  Let all fixes that the check asks for in a template
be applied.  No edit is dropped for another one, none is refused, and each removes a reported assignment, and
with it at most white space beside it.  In a template that has a closer for each opener, the variables and tags
that are left are those that were there before, with their names, markups and order. -/
theorem unusedAssign_removes {path : Text} (hcategory : (Project.classify path).category = .liquid)
    (stored : Text) (version : Int) :
    let f := SourceFile.parse path stored version
    let heads := (parse f.source).root.walk fun _ => true
    let raised := visitAlone unusedAssign f
    let fixed := replay (some f) stored raised.fixes {}
    let edits := fixed.outcome.applied
    let corrected := Corrector.splice f.source edits
    fixed.outcome.conflicts = [] ∧ fixed.failures = [] ∧
      fixed.outcome.content = (if edits.isEmpty then stored else f.encode corrected) ∧
      (∀ p, p ∈ raised.fixes ↔ ∃ h ∈ heads, takenAway edits h = true ∧ p = removal f h) ∧
      (∀ h ∈ heads, takenAway edits h = true → h.name = "assign" ∧
        ∃ name, unreadOffense f h name ∈ raised.offenses) ∧
      (∀ e ∈ edits, e.text = [] ∧ ∃ h ∈ heads, takenAway [e] h = true ∧
        Text.trimSpace (Text.slice f.source e.start h.start) = [] ∧
        Text.trimSpace (Text.slice f.source h.stop e.stop) = []) ∧
      ((∀ w ∈ (parse f.source).warnings, ∀ d, w.message ≠ (Defect.unterminated d).message) →
        ((parse corrected).root.walk fun _ => true).flatMap Head.entry =
          (heads.filter fun h => !takenAway edits h).flatMap Head.entry) := by
  intro f heads raised fixed edits corrected
  have hf : Spacing.IsTemplate f := Spacing.isTemplate_parse hcategory stored version
  obtain ⟨gone, hfixes, hgone⟩ := exists_fixes hf
  obtain ⟨horder, hstarts⟩ := inOrder_removalEdits f.source gone
  have hspans : raised.fixes = (gone.map fun h => removalSpan f.source ⟨h.start, h.stop⟩).map
      fun s => ⟨f.path, unusedAssign.info.code, [.edit s.toRange []]⟩ := by
    rw [List.map_map]
    exact hfixes
  obtain ⟨hconflicts, hfailures, hcontent, hsplice, happlied⟩ :=
    replay_spans stored hspans horder hstarts (mem_removalEdits hgone)
  refine ⟨hconflicts, hfailures, hcontent, fun p => ?_, fun h => exists_offense hgone happlied,
    fun e => exists_takenAway hgone happlied, fun hwarnings => ?_⟩
  · rw [hfixes]
    exact mem_removals_iff hgone happlied
  · have hentries := entries_patch hgone happlied (terminated_of_warnings hwarnings)
    rwa [← hsplice] at hentries

/-- A page with three assignments, of which one is read. -/
def assignedPage : Text :=
  "\x7b% assign a = 1 %\x7d\nb \x7b%- assign c = 1 -%\x7d\x7b% assign d = 1 %\x7d\x7b\x7b d \x7d\x7d"

/-- One assignment is taken away with its line, another one between words, and one that is read stays. -/
theorem unusedAssign_removes_page :
    let f := SourceFile.parse "app/views/pages/a.liquid" assignedPage 1
    let fixed := replay (some f) assignedPage (visitAlone unusedAssign f).fixes {}
    let corrected := Corrector.splice f.source fixed.outcome.applied
    (Project.classify "app/views/pages/a.liquid").category = .liquid ∧ (parse f.source).warnings = [] ∧
      fixed.outcome.applied.map (·.start) = [0, 21] ∧
      fixed.outcome.conflicts = [] ∧ fixed.failures = [] ∧
      ((parse corrected).root.walk fun _ => true).flatMap Head.entry =
        ([("assign", "d = 1"), ("", "d")] : List (Text × Text)) := by
  dsimp only
  have hcategory : (Project.classify "app/views/pages/a.liquid").category = .liquid := by decide +kernel
  have hwarnings : (parse (SourceFile.parse "app/views/pages/a.liquid" assignedPage 1).source).warnings = [] := by
    decide +kernel
  have hremoves := unusedAssign_removes hcategory assignedPage 1
  dsimp only at hremoves
  obtain ⟨hconflicts, hfailures, _, _, _, _, hentries⟩ := hremoves
  refine ⟨hcategory, hwarnings, by decide +kernel, hconflicts, hfailures, (hentries ?_).trans ?_⟩
  · rw [hwarnings]
    nofun
  · decide +kernel

end Assignment
end Rule
end LiquidLint
