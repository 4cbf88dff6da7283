import LiquidLint.Proofs.SpacingVisits
import LiquidLint.Proofs.StoredForm

/-!
# Tidied templates

A template is tidied by the edits of all its variables and tags that the rule looks at
(`templateEdits`), made from left to right (`tidied`).  Its tokens are then the same elsewhere
(`respaces_tidied`), so that its tree is the same apart from its offsets (`parse_tidied`), and nothing
is left to be reported (`pieceSpans_tidied`).  A tidied template can be stored where the template can
(`storable_tidied`).

Replaying all the fixes that the rule asks for in a template tidies it (`replay_fileFixes`): no edit is
dropped and none is refused.  What is read back from the stored content is then the tidied template,
which has the same tree and the same warnings apart from their offsets, and on which the rule reports
nothing (`spaceInsideBraces_converges`).
-/

namespace LiquidLint
namespace Rule
namespace Spacing

open Source Liquid

/-- Whether the rule looks at a token of a template. -/
def chosen (src : Text) (tok : Token) : Bool := decide (tok.piece ∈ watchedIn (parse src).root)

/-- The edits of a token of a template. -/
def tokenEdits (src : Text) (tok : Token) : List Edit :=
  if chosen src tok then
    (tokenSpans tok.start (Text.slice src tok.start tok.stop)).map spaceAt
  else []

/-- The edits of a template, from left to right. -/
def templateEdits (src : Text) : List Edit := (tokens src).flatMap (tokenEdits src)

/-- The template with all its edits made. -/
def tidied (src : Text) : Text := patch src 0 src.length (templateEdits src)

section Template

variable {src : Text}

theorem not_isText_of_chosen (tok : Token) (h : chosen src tok = true) : ¬ tok.kind.IsText :=
  not_isText_of_piece (exists_token_of_braces (watched_subset _ (of_decide_eq_true h))).1

/-- A token that the rule looks at stands between delimiters. -/
theorem exists_inner_of_chosen {tok : Token} (htok : tok ∈ tokens src) (h : chosen src tok = true) :
    ∃ (d : Delimiter) (inner : Text), tok.stop = tok.start + inner.length + 4 ∧
      Text.slice src tok.start tok.stop = d.opener ++ (inner ++ d.closer) := by
  obtain ⟨d, inner, heq, htext⟩ := exists_delimited htok (not_isText_of_chosen tok h)
  refine ⟨d, inner, ?_, htext⟩
  rw [heq, Token.stop_delimited, Token.start_delimited]

/-- The edits of a token tidy it. -/
theorem patch_tokenEdits {tok : Token} (htok : tok ∈ tokens src) :
    InOrder tok.start (tokenEdits src tok) tok.stop ∧
      patch src tok.start tok.stop (tokenEdits src tok) =
        fixToken (chosen src) tok (Text.slice src tok.start tok.stop) := by
  unfold tokenEdits fixToken
  by_cases h : chosen src tok = true
  · obtain ⟨d, inner, hstop, htext⟩ := exists_inner_of_chosen htok h
    rw [if_pos h, if_pos h, htext, tokenSpans_delimited, tidyToken_delimited, hstop]
    rw [hstop] at htext
    exact patch_bodySpans htext
  · rw [if_neg h, if_neg h]
    have hplaced := ((tiles_tokens src).follows.placed htok).2.1
    exact ⟨Nat.le_of_lt hplaced.start_lt_stop, rfl⟩

variable (src)

/-- **A tidied template has the same tokens elsewhere.** -/
theorem respaces_tidied :
    InOrder 0 (templateEdits src) src.length ∧
      Respaces (fixToken (chosen src)) 0 0 src (tidied src) (tokens src) (tokens (tidied src)) := by
  obtain ⟨src', toks', hreads, hrespaces, _⟩ :=
    exists_tidied not_isText_of_chosen (reads_tokensFrom 0 src) 0
  obtain ⟨horder, hpatch⟩ := @Respaces.patch_eq _ 0 0 src src' _ toks' hrespaces (tokenEdits src) src
    [] rfl rfl fun tok htok => patch_tokenEdits htok
  rw [Nat.zero_add] at horder hpatch
  have hsource : tidied src = src' := hpatch
  refine ⟨horder, ?_⟩
  rw [hsource, show tokens src' = toks' from hreads.tokensFrom_eq]
  exact hrespaces

/-- **A tidied template has the same tree and the same warnings, apart from their offsets.** -/
theorem parse_tidied :
    ∃ move : Nat → Nat, (parse (tidied src)).root = (parse src).root.moved move ∧
      (parse (tidied src)).warnings = (parse src).warnings.map (Warning.moved move) :=
  ⟨_, parse_moved (respaces_tidied src).2.movesTo⟩

/-- **Nothing is left to be reported on a tidied template.** -/
theorem pieceSpans_tidied {p : Piece} (hp : p ∈ watchedIn (parse (tidied src)).root) :
    pieceSpans (tidied src) p = [] := by
  have hrespaces := (respaces_tidied src).2
  obtain ⟨hroot, _⟩ := parse_moved hrespaces.movesTo
  rw [hroot, watchedIn_moved] at hp
  obtain ⟨q, hq, rfl⟩ := List.mem_map.1 hp
  obtain ⟨_, tok, htok, rfl⟩ := exists_token_of_braces (watched_subset _ hq)
  have hchosen : chosen src tok = true := decide_eq_true hq
  obtain ⟨d, inner, _, htext⟩ := exists_inner_of_chosen htok hchosen
  have hmoved := @Respaces.slice_moved _ 0 0 _ _ _ _ hrespaces [] [] rfl rfl tok htok
  simp only [Nat.zero_add, List.nil_append] at hmoved
  unfold pieceSpans Piece.moved
  dsimp only
  rw [Token.start_piece, Token.stop_piece, hmoved]
  unfold fixToken
  rw [if_pos hchosen, htext, tidyToken_delimited, tokenSpans_delimited, ofText_tidyInner]
  exact bodySpans_tidyBody _ _

/-! ## The edits -/

/-- The edits of a template are those of the variables and tags that the rule looks at. -/
theorem mem_templateEdits {e : Edit} :
    e ∈ templateEdits src ↔
      ∃ s, (∃ p ∈ watchedIn (parse src).root, s ∈ pieceSpans src p) ∧ spaceAt s = e := by
  have hspans (tok : Token) : pieceSpans src tok.piece =
      tokenSpans tok.start (Text.slice src tok.start tok.stop) := by
    unfold pieceSpans
    rw [Token.start_piece, Token.stop_piece]
  constructor
  · intro he
    obtain ⟨tok, _, he⟩ := List.mem_flatMap.1 he
    unfold tokenEdits at he
    split at he
    · rename_i hchosen
      obtain ⟨s, hs, rfl⟩ := List.mem_map.1 he
      exact ⟨s, ⟨tok.piece, of_decide_eq_true hchosen, by rwa [hspans]⟩, rfl⟩
    · cases he
  · rintro ⟨s, ⟨p, hp, hs⟩, rfl⟩
    obtain ⟨_, tok, htok, rfl⟩ := exists_token_of_braces (watched_subset _ hp)
    rw [hspans] at hs
    refine List.mem_flatMap.2 ⟨tok, htok, ?_⟩
    have hchosen : chosen src tok = true := decide_eq_true hp
    unfold tokenEdits
    rw [if_pos hchosen]
    exact List.mem_map_of_mem hs

/-- The edits of a token start one behind the other, behind the start of the token. -/
theorem tokenEdits_starts {tok : Token} (htok : tok ∈ tokens src) :
    (tokenEdits src tok).Pairwise (fun a b => a.start < b.start) ∧
      ∀ e ∈ tokenEdits src tok, tok.start < e.start := by
  unfold tokenEdits
  by_cases h : chosen src tok = true
  · obtain ⟨d, inner, _, htext⟩ := exists_inner_of_chosen htok h
    rw [if_pos h, htext, tokenSpans_delimited]
    obtain ⟨hpairwise, hstart⟩ := bodySpans_starts ((Inner.ofText inner).bodyStart tok.start)
      (Inner.ofText inner).body
    refine ⟨List.pairwise_map.2 hpairwise, fun e he => ?_⟩
    obtain ⟨s, hs, rfl⟩ := List.mem_map.1 he
    have hle := hstart s hs
    unfold Inner.bodyStart at hle
    show tok.start < s.start
    omega
  · rw [if_neg h]
    exact ⟨.nil, fun e he => (List.not_mem_nil he).elim⟩

/-- **No two edits of a template start together.** -/
theorem templateEdits_starts : (templateEdits src).Pairwise fun a b => a.start < b.start := by
  unfold templateEdits
  refine List.pairwise_flatMap.2 ⟨fun tok htok => (tokenEdits_starts src htok).1, ?_⟩
  refine (tiles_tokens src).follows.apart.imp_of_mem ?_
  intro tok tok' htok htok' hapart e he e' he'
  have hbounds := (patch_tokenEdits htok).1.bounds he
  have hstart := (tokenEdits_starts src htok').2 e' he'
  omega

end Template

/-! ## Storing -/

section Storing

variable {f : SourceFile} {u v : Text}

/-- A tidy gap can be stored where the gap can. -/
theorem storable_tidyGap {gap : Text} (h : Storable f (u ++ (gap ++ v)))
    (hgap : ∀ b ∈ gap, isGap b = true)
    (hedge : (∃ b ∈ u.getLast?, b.toNat < 0x80) ∨ ∃ b ∈ v.head?, b.toNat < 0x80) :
    Storable f (u ++ (tidyGap gap ++ v)) := by
  by_cases htidy : tidyGap gap = gap
  · rwa [htidy]
  · rw [tidyGap_of_ne htidy]
    exact h.space (fun b hb => ascii_of_isGap (hgap b hb)) hedge

/-- A tidied variable or tag can be stored where the variable or tag can. -/
theorem storable_tidyInner {d : Delimiter} {inner : Text}
    (h : Storable f (u ++ (d.opener ++ (inner ++ d.closer) ++ v))) :
    Storable f (u ++ (d.opener ++ (tidyInner inner ++ d.closer) ++ v)) := by
  have hparts := Inner.text_ofText inner
  unfold tidyInner
  generalize Inner.ofText inner = i at hparts
  subst hparts
  by_cases hblank : Text.trimSpace i.body = []
  · rwa [tidyBody_of_blank hblank]
  · obtain ⟨m, _, hbody, htidy⟩ := exists_tidyBody hblank
    have hlead := isGap_lead i.body
    have htrail := isGap_trail i.body
    rw [htidy]
    unfold Inner.text at h ⊢
    dsimp only at h ⊢
    rw [hbody] at h
    generalize lead i.body = l at *
    generalize trail i.body = t at *
    have hbefore : ∃ b ∈ (u ++ (d.opener ++ Inner.dash i.left)).getLast?, b.toNat < 0x80 := by
      have hne : d.opener ++ Inner.dash i.left ≠ [] := List.cons_ne_nil _ _
      rw [List.getLast?_append_of_ne_nil u hne]
      cases i.left <;> cases d <;> exact ⟨_, rfl, by decide⟩
    have hafter : ∃ b ∈ (Inner.dash i.right ++ (d.closer ++ v)).head?, b.toNat < 0x80 := by
      cases i.right <;> cases d <;> exact ⟨_, rfl, by decide⟩
    have hfirst := @storable_tidyGap f (u ++ (d.opener ++ Inner.dash i.left))
      (m ++ (t ++ (Inner.dash i.right ++ (d.closer ++ v)))) l
      (by simpa only [List.append_assoc] using h) hlead (.inl hbefore)
    have hlast := @storable_tidyGap f (u ++ (d.opener ++ (Inner.dash i.left ++ (tidyGap l ++ m))))
      (Inner.dash i.right ++ (d.closer ++ v)) t
      (by simpa only [List.append_assoc] using hfirst) htrail (.inr hafter)
    simpa only [List.append_assoc] using hlast

/-- **A tidied template can be stored where the template can.** -/
theorem storable_tidied (h : Storable f f.source) : Storable f (tidied f.source) := by
  refine @Respaces.keeps _ 0 0 f.source (tidied f.source) _ _ (respaces_tidied f.source).2 (Storable f)
    f.source [] rfl rfl ?_ [] h
  intro tok htok u v hstored
  unfold fixToken
  by_cases hchosen : chosen f.source tok = true
  · obtain ⟨d, inner, _, htext⟩ := exists_inner_of_chosen htok hchosen
    rw [htext] at hstored ⊢
    rw [if_pos hchosen, tidyToken_delimited]
    exact storable_tidyInner hstored
  · rwa [if_neg hchosen]

end Storing

open Analysis

/-- The fixes for the places that are reported on in a file. -/
def fileFixes (f : SourceFile) : List PendingFix :=
  (fileSpans f).map fun s => ⟨f.path, spaceInsideBraces.info.code, spaceFix s⟩

section Pass

variable {f : SourceFile} (hf : IsTemplate f)

include hf

/-- The fixes that the rule asks for. -/
theorem fixes_visitAlone_spacing (hplain : Suppressions.directives f = []) :
    (visitAlone spaceInsideBraces f).fixes = fileFixes f := by
  have hfixes : (fileReports f).filterMap Report.fix = (fileSpans f).map spaceFix := by
    have h := congrArg (List.filterMap id) (fix_fileReports hf)
    rw [List.filterMap_map, List.filterMap_map] at h
    exact h.trans (congrFun List.filterMap_eq_map _)
  rw [fixes_visitAlone onlyReports_spaceInsideBraces hplain]
  show ((fileReports f).filterMap Report.fix).map _ = _
  rw [hfixes, List.map_map]
  rfl

theorem mem_templateEdits_iff (e : Edit) :
    e ∈ templateEdits f.source ↔ e ∈ (fileSpans f).map spaceAt := by
  rw [mem_templateEdits, List.mem_map]
  constructor
  · rintro ⟨s, hs, heq⟩
    exact ⟨s, (mem_fileSpans hf).2 hs, heq⟩
  · rintro ⟨s, hs, heq⟩
    exact ⟨s, (mem_fileSpans hf).1 hs, heq⟩

/-- **Replaying the fixes tidies the template.** -/
theorem replay_fileFixes (stored : Text) :
    let fixed := replay (some f) stored (fileFixes f) {}
    fixed.outcome.conflicts = [] ∧ fixed.failures = [] ∧
      (fixed.outcome.content = f.encode (tidied f.source) ∨
        fixed.outcome.content = stored ∧ tidied f.source = f.source) := by
  obtain ⟨hconflicts, hfailures, hcontent, hsplice, _⟩ := replay_spans stored
    (show fileFixes f = _ from rfl) (respaces_tidied f.source).1 (templateEdits_starts f.source)
    (mem_templateEdits_iff hf)
  refine ⟨hconflicts, hfailures, ?_⟩
  by_cases hempty : (replay (some f) stored (fileFixes f) {}).outcome.applied = []
  · right
    constructor
    · rw [hcontent, if_pos (List.isEmpty_iff.2 hempty)]
    · show patch f.source 0 f.source.length (templateEdits f.source) = f.source
      rw [← hsplice, hempty]
      simp [Corrector.splice]
  · left
    rw [hcontent, if_neg fun h => hempty (List.isEmpty_iff.1 h), hsplice]
    rfl

/-- Where nothing is left to be reported the rule raises nothing. -/
theorem offenses_of_tidy
    (htidy : ∀ p ∈ watchedIn (parse f.source).root, pieceSpans f.source p = []) :
    (visitAlone spaceInsideBraces f).offenses = [] := by
  have hspans : fileSpans f = [] := by
    refine List.eq_nil_iff_forall_not_mem.2 fun s hs => ?_
    obtain ⟨p, hp, hs⟩ := (mem_fileSpans hf).1 hs
    rw [htidy p hp] at hs
    cases hs
  have hreports : fileReports f = [] := by
    have h := fix_fileReports hf
    rw [hspans] at h
    exact List.map_eq_nil_iff.1 h
  have hvisit := visitAlone_eq onlyReports_spaceInsideBraces f
  unfold fileReports at hreports
  rw [hvisit, hreports]
  rfl

/-- A template without comments has no directives. -/
theorem directives_of_no_comment
    (h : (Node.ofLiquid f.source.length (parse f.source).root).walk.all
      (fun n => n.kind ≠ ("comment" : Text)) = true) :
    Suppressions.directives f = [] := by
  obtain ⟨html, htrees⟩ := hf.trees
  unfold Suppressions.directives
  rw [htrees, List.find?_cons_of_pos (by cases (parse f.source).root; rfl)]
  refine List.filterMap_eq_nil_iff.2 fun n hn => if_neg ?_
  exact of_decide_eq_true (List.all_eq_true.1 h n hn)

/-- The content of a template that is not tidy is the tidied template in its stored form. -/
theorem content_replay (stored : Text) (hplain : Suppressions.directives f = [])
    (hchanged : tidied f.source ≠ f.source) :
    (replay (some f) stored (visitAlone spaceInsideBraces f).fixes {}).outcome.content =
      f.encode (tidied f.source) := by
  rw [fixes_visitAlone_spacing hf hplain]
  rcases (replay_fileFixes hf stored).2.2 with hcontent | ⟨_, hsame⟩
  · exact hcontent
  · exact absurd hsame hchanged

end Pass

/-- **One pass of the spacing rule is enough.**  Let all fixes that the rule asks for in a template
without directives be applied.  No edit is dropped for another one, none is refused, the corrected
template has the same tree and the same warnings apart from their offsets, and the rule finds nothing
in it. -/
theorem spaceInsideBraces_converges {path : Text}
    (hcategory : (Project.classify path).category = .liquid) (stored : Text) (v v' : Int)
    (hplain : Suppressions.directives (SourceFile.parse path stored v) = []) :
    let f := SourceFile.parse path stored v
    let fixed := replay (some f) stored (visitAlone spaceInsideBraces f).fixes {}
    let g := SourceFile.parse path fixed.outcome.content v'
    fixed.outcome.conflicts = [] ∧ fixed.failures = [] ∧
      (parse g.source).root.unplaced = (parse f.source).root.unplaced ∧
      (parse g.source).warnings.map Liquid.Warning.message =
        (parse f.source).warnings.map Liquid.Warning.message ∧
      (visitAlone spaceInsideBraces g).offenses = [] := by
  dsimp only
  have hf := isTemplate_parse hcategory stored v
  have hstorable := storable_tidied (storable_source path stored v)
  have hsource : (SourceFile.parse path stored v).source = sourceOf stored := rfl
  rw [fixes_visitAlone_spacing hf hplain]
  obtain ⟨hconflicts, hfailures, hcontent⟩ := replay_fileFixes hf stored
  generalize replay _ stored _ {} = fixed at *
  have hg := isTemplate_parse hcategory fixed.outcome.content v'
  -- what is read back is the tidied template
  have hread : (SourceFile.parse path fixed.outcome.content v').source =
      tidied (SourceFile.parse path stored v).source := by
    show sourceOf fixed.outcome.content = _
    rcases hcontent with hcontent | ⟨hcontent, hsame⟩
    · rw [hcontent]
      exact hstorable.sourceOf_encode
    · rw [hcontent, hsame]
      rfl
  obtain ⟨move, hroot, hwarnings⟩ := parse_tidied (SourceFile.parse path stored v).source
  refine ⟨hconflicts, hfailures, ?_, ?_, ?_⟩
  · rw [hread, hroot, Node.unplaced_moved]
  · rw [hread, hwarnings, List.map_map]
    rfl
  · refine offenses_of_tidy hg fun p hp => ?_
    rw [hread] at hp ⊢
    exact pieceSpans_tidied _ hp

/-- The rule adds spaces to a variable and to a tag, and takes one away from another tag. -/
theorem spaceInsideBraces_converges_page :
    let path : Text := "app/views/pages/a.liquid"
    let stored : Text := "a \x7b\x7bb\x7d\x7d \x7b%if x%\x7dc\x7b%-  endif %\x7d"
    (Project.classify path).category = .liquid ∧
      Suppressions.directives (SourceFile.parse path stored 1) = [] ∧
      (replay (some (SourceFile.parse path stored 1)) stored
        (visitAlone spaceInsideBraces (SourceFile.parse path stored 1)).fixes {}).outcome.content =
          "a \x7b\x7b b \x7d\x7d \x7b% if x %\x7dc\x7b%- endif %\x7d" ∧
      let f := SourceFile.parse path stored 1
      let fixed := replay (some f) stored (visitAlone spaceInsideBraces f).fixes {}
      let g := SourceFile.parse path fixed.outcome.content 2
      fixed.outcome.conflicts = [] ∧ fixed.failures = [] ∧
        (parse g.source).root.unplaced = (parse f.source).root.unplaced ∧
        (parse g.source).warnings.map Liquid.Warning.message =
          (parse f.source).warnings.map Liquid.Warning.message ∧
        (visitAlone spaceInsideBraces g).offenses = [] := by
  intro path stored
  have hcategory : (Project.classify path).category = .liquid := by decide +kernel
  have hf := isTemplate_parse hcategory stored 1
  have hplain := directives_of_no_comment hf (by decide +kernel)
  have hcontent := content_replay hf stored hplain (by decide +kernel)
  exact ⟨hcategory, hplain, hcontent.trans (by decide +kernel),
    spaceInsideBraces_converges hcategory stored 1 2 hplain⟩

end Spacing
end Rule
end LiquidLint
