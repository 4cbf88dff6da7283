import LiquidLint.Proofs.RenamedTokens

/-!
# Templates whose tags are renamed

The name of a tag is looked for between the place where the tag starts and the place where its markup is said
to start.  Where the lines of `liquid` tags stand where they are said to stand (`LinesInPlace`), what is found
is the name (`names_of_seen`), and edits that put `render` in place of such names change the tree of a template
in these names, and in the markups of the tags that hold the lines (`parse_renamed`).
-/

namespace LiquidLint

/-- The edit puts `render` where the name of an `include` tag is found. -/
structure Edit.Renames (src : Text) (e : Edit) (h : Liquid.Head) : Prop where
  kind : h.kind = .tag
  name : h.name = "include"
  found : ∃ i, Text.offsetOf? (Text.slice src h.start h.markupStart) "include" = some i ∧
    e.start = h.start + i
  stop : e.stop = e.start + 7
  text : e.text = "render"

namespace Edit.Renames

variable {src : Text} {e : Edit} {h : Liquid.Head}

theorem isPlain (he : e.Renames src h) : h.IsPlain := by
  refine ⟨by rw [he.kind]; nofun, ?_⟩
  rw [he.name]
  decide

/-- Who asked for an edit is not looked at. -/
theorem of_plain (he : e.plain.Renames src h) : e.Renames src h :=
  ⟨he.kind, he.name, he.found, he.stop, he.text⟩

/-- The name that is found stands in front of the markup. -/
theorem bounds (he : e.Renames src h) :
    h.start ≤ e.start ∧ e.stop ≤ h.markupStart ∧ Text.slice src e.start e.stop = "include" := by
  obtain ⟨i, hfound, hstart⟩ := he.found
  have hstop := he.stop
  obtain ⟨u, v, hslice, hlength⟩ := Text.exists_of_offsetOf? hfound
  have hsize := congrArg List.length hslice
  have hword : ("include" : Text).length = 7 := by decide
  simp only [Text.slice, List.length_take, List.length_append, List.length_drop, hword] at hsize
  have hinside : h.start + (i + 7) ≤ h.markupStart := by omega
  refine ⟨by omega, by omega, ?_⟩
  calc Text.slice src e.start e.stop
    _ = Text.slice (Text.slice src h.start h.markupStart) i (i + 7) := by
      rw [Text.slice_slice src hinside, hstop, hstart, Nat.add_assoc]
    _ = "include" := by
      rw [hslice, ← hlength, ← hword]
      exact Text.slice_append u _ v

end Edit.Renames

namespace Liquid

/-! ## Names that are found -/

/-- The tag as it is opened, without its end. -/
def Head.opened (h : Head) : Head := { h with stop := 0, closeStart := none, closed := false }

/-- The tags of a template, without their ends. -/
def openedTags (h : Head) : List Head := if h.kind = .tag then [h.opened] else []

theorem blind_openedTags : Blind openedTags := ⟨fun _ _ => rfl, fun _ _ => rfl⟩

/-- The markup of a `liquid` tag with an `include` tag in it stands where the tag says. -/
def HeadsInPlace (src : Text) (heads : List Head) : Prop :=
  ∀ h ∈ heads, h.name = "liquid" →
    (∃ g ∈ heads, g.name = "include" ∧ h.start ≤ g.start ∧ g.openEnd ≤ h.openEnd) →
    Text.slice src h.markupStart (h.markupStart + h.markup.length) = h.markup

/-- What renames the node stands at a name of the token, which holds the node. -/
structure NamedBy (src : Text) (g : Head) (tok : Token) : Prop where
  start_le : tok.start ≤ g.start
  le_stop : g.openEnd ≤ tok.stop
  names : ∀ e : Edit, e.Renames src g → Names src e tok

/-- An `include` tag that a token brings is renamed at a name of the token. -/
theorem namedBy_of_seenBy {src : Text} {heads : List Head} (hplace : HeadsInPlace src heads) {b : Builder}
    {tok : Token} (hplaced : tok.Placed)
    (hlines : (∀ g ∈ seenAll openedTags (Builder.addLines src b.warnings tok).done, g ∈ heads) →
      ∀ g ∈ seenAll openedTags (Builder.addLines src b.warnings tok).done, g.name = "include" →
        ∃ line ∈ liquidLines tok.markup tok.markupStart, NamedBy src g line)
    (hheads : ∀ g ∈ b.seenBy openedTags src tok, g ∈ heads) {g : Head}
    (hg : g ∈ b.seenBy openedTags src tok) (hname : g.name = "include") : NamedBy src g tok := by
  have hraw (markup : Text) : seenAll openedTags [rawNode tok.start tok.stop markup] = [] := by
    rw [rawNode, seenAll_leaf]
    rfl
  have hself (hkind : tok.kind = .tag)
      (hg : g ∈ openedTags (tok.head .tag)) : NamedBy src g tok := by
    obtain rfl := List.mem_singleton.1 hg
    refine ⟨Nat.le_refl _, Nat.le_refl _, fun e he => ?_⟩
    obtain ⟨i, hfound, hstart⟩ := he.found
    exact .here hkind hname hfound hstart
  have hother {role : TagRole} (hrole : tagRole tok.name = role) (hne : role ≠ .inline) {block : Bool}
      (hg : g ∈ openedTags { tok.head .tag with block }) : NamedBy src g tok := by
    obtain rfl := List.mem_singleton.1 hg
    have hname : tok.name = "include" := hname
    rw [hname] at hrole
    exact absurd hrole.symm hne
  unfold Builder.seenBy at hg hheads
  cases hkind : tok.kind with
  | text | unterminated _ =>
    rw [hkind] at hg
    dsimp only at hg
    rw [hraw] at hg
    cases hg
  | «variable» =>
    rw [hkind] at hg
    cases hg
  | tag =>
    rw [hkind] at hg hheads
    dsimp only at hg hheads
    split at hg
    · rw [hraw] at hg
      cases hg
    · rename_i hcomment
      rw [if_neg hcomment] at hheads
      cases hrole : tagRole tok.name with
      | inline =>
        rw [hrole] at hg
        exact hself hkind hg
      | closes block =>
        rw [hrole] at hg
        cases hg
      | opens | nameless | branch | unknown =>
        rw [hrole] at hg
        exact hother hrole (fun hinline => by cases hinline) hg
      | lines =>
        rw [hrole] at hg hheads
        dsimp only at hg hheads
        have hliquid := name_of_lines hrole
        rcases List.mem_append.1 hg with hg' | hg'
        · exact hother hrole (fun hinline => by cases hinline) hg'
        · obtain ⟨line, hline, hstart, hstop, hnames⟩ :=
            hlines (fun g hg => hheads g (List.mem_append_right _ hg)) g hg' hname
          obtain ⟨hlo, _, hhi⟩ := (follows_liquidLines _ _).placed hline
          have := hplaced.start_le_markup
          have := hplaced.markup_le_stop
          have hinside : tok.start ≤ g.start ∧ g.openEnd ≤ tok.stop := by omega
          refine ⟨hinside.1, hinside.2, fun e he => .line hkind hliquid ?_ hline (hnames e he)⟩
          exact hplace (tok.head .tag).opened (hheads _ (List.mem_append_left _ (List.mem_singleton_self _)))
            hliquid ⟨g, hheads g hg, hname, hinside⟩

/-- **A name that is found is the name of the tag**, in a run on tokens whose lines stand in place. -/
theorem names_of_seen {src : Text} {heads : List Head} (hplace : HeadsInPlace src heads) {toks : List Token} :
    ∀ {b : Builder}, (∀ tok ∈ toks, tok.Placed) →
      ∃ more, (b.addTokens src toks).seen openedTags = b.seen openedTags ++ more ∧
        ((∀ g ∈ more, g ∈ heads) → ∀ g ∈ more, g.name = "include" → ∃ tok ∈ toks, NamedBy src g tok) := by
  induction toks using Builder.tokens_induction with
  | nil =>
    intro b _
    exact ⟨[], by rw [Builder.addTokens_nil, List.append_nil], nofun⟩
  | cons tok rest ihlines ih =>
    intro b hplaced
    have htok := hplaced tok (List.mem_cons_self ..)
    obtain ⟨more, hseen, hmore⟩ := ih (b := b.add src tok) fun t ht => hplaced t (List.mem_cons_of_mem _ ht)
    refine ⟨b.seenBy openedTags src tok ++ more, ?_, fun hheads g hg hname => ?_⟩
    · rw [Builder.addTokens_cons, hseen, Builder.seen_add blind_openedTags, List.append_assoc]
    · rcases List.mem_append.1 hg with hg | hg
      · refine ⟨tok, List.mem_cons_self .., ?_⟩
        refine namedBy_of_seenBy hplace htok (fun hlines g hg hname => ?_)
          (fun g hg => hheads g (List.mem_append_left _ hg)) hg hname
        obtain ⟨lines, hseen, hnamed⟩ := ihlines (b := { warnings := b.warnings }) fun line hline =>
          ((follows_liquidLines _ _).placed hline).2.1
        have hempty : ({ warnings := b.warnings } : Builder).seen openedTags = [] := rfl
        have hall : seenAll openedTags (Builder.addLines src b.warnings tok).done = lines := by
          rw [Builder.addLines, Builder.seen_finish blind_openedTags, hseen, hempty, List.nil_append]
        rw [hall] at hg hlines
        exact hnamed hlines g hg hname
      · obtain ⟨t, ht, hnamed⟩ := hmore (fun g hg => hheads g (List.mem_append_right _ hg)) g hg hname
        exact ⟨t, List.mem_cons_of_mem _ ht, hnamed⟩

/-! ## Edited templates -/

/-- The markups of the `liquid` tags of a template with `include` tags in them stand where these tags say. -/
def LinesInPlace (src : Text) : Prop := HeadsInPlace src ((parse src).root.walk fun _ => true)

/-- The places of raw nodes with an edit in them. -/
def rawEdits (edits : List Edit) (h : Head) : List Unit :=
  if h.kind = .raw ∧ hasEdit edits h.start h.openEnd = true then [()] else []

theorem blind_rawEdits (edits : List Edit) : Blind (rawEdits edits) := ⟨fun _ _ => rfl, fun _ _ => rfl⟩

/-- **A name that is found is the name of a token**, or of one of its lines. -/
theorem exists_namedBy {src : Text} (hplace : LinesInPlace src) {h : Head}
    (hh : h ∈ (parse src).root.walk fun _ => true) (hkind : h.kind = .tag) (hname : h.name = "include") :
    ∃ tok ∈ tokens src, NamedBy src h tok := by
  have hbelow {g : Head} (hg : g ∈ seenAll openedTags (parse src).root.children) :
      ∃ h ∈ (parse src).root.walk (fun _ => true), g = h.opened := by
    obtain ⟨h, hh, hg⟩ := List.mem_flatMap.1 hg
    unfold openedTags at hg
    split at hg
    · exact ⟨h, mem_walk_of_below hh, List.mem_singleton.1 hg⟩
    · cases hg
  have hplace' : HeadsInPlace src (seenAll openedTags (parse src).root.children) := by
    intro g hg hliquid hinside
    obtain ⟨h, hh, rfl⟩ := hbelow hg
    refine hplace h hh hliquid ?_
    obtain ⟨g', hg', hname, hbounds⟩ := hinside
    obtain ⟨h', hh', rfl⟩ := hbelow hg'
    exact ⟨h', hh', hname, hbounds⟩
  obtain ⟨more, hseen, hnamed⟩ := @names_of_seen src _ hplace' (tokens src)
    { warnings := unterminatedWarnings (tokens src) } fun tok htok =>
      ((tiles_tokens src).follows.placed htok).2.1
  have hrun : seenAll openedTags (parse src).root.children = more :=
    (Builder.seen_finish blind_openedTags _ _).trans hseen
  have hmem : h.opened ∈ seenAll openedTags (parse src).root.children :=
    List.mem_flatMap.2 ⟨h, mem_below_of_walk hh (by rw [hkind]; nofun), by simp [openedTags, hkind]⟩
  obtain ⟨tok, htok, hnamedBy⟩ := hnamed (by rw [hrun]; exact fun _ => id) h.opened (hrun ▸ hmem) hname
  refine ⟨tok, htok, hnamedBy.start_le, hnamedBy.le_stop, fun e he => hnamedBy.names e ?_⟩
  exact ⟨he.kind, he.name, he.found, he.stop, he.text⟩

/-- Two nodes that hold no lines are the same, or stand apart. -/
theorem eq_or_apart {src : Text} {h g : Head} (hh : h ∈ (parse src).root.walk fun _ => true)
    (hg : g ∈ (parse src).root.walk fun _ => true) (hplain : h.IsPlain) (hplain' : g.IsPlain) :
    h = g ∨ h.openEnd ≤ g.start ∨ g.openEnd ≤ h.start :=
  List.Pairwise.forall_of_forall_of_flip
    (R := fun h g => h.IsPlain → g.IsPlain → h = g ∨ h.openEnd ≤ g.start ∨ g.openEnd ≤ h.start)
    (fun _ _ _ _ => .inl rfl)
    ((openings_in_order src).imp fun hle hh hg => .inr (.inl (hle hh hg)))
    ((openings_in_order src).imp fun hle hh hg => .inr (.inr (hle hg hh)))
    hh hg hplain hplain'

/-- The root and the raw nodes have no name. -/
theorem name_of_nameless {src : Text} {h : Head} (hh : h ∈ (parse src).root.walk fun _ => true)
    (hkind : h.kind = .document ∨ h.kind = .raw) : h.name = [] := by
  rcases List.mem_cons.1 hh with rfl | hh
  · rfl
  · refine forall_below_root (P := fun h => h.kind = .document ∨ h.kind = .raw → h.name = []) (Q := fun _ => True)
      (fun _ _ _ _ => Iff.rfl) (fun _ _ => trivial) (fun _ _ _ _ _ => trivial) (fun b tok n _ hleaf => ?_)
      (fun _ _ _ => ⟨nofun, nofun⟩) hh hkind
    cases hleaf with
    | text _ | comment _ _ _ => exact fun _ => rfl
    | «variable» _ | inline _ _ _ => exact nofun

theorem isPlain_of_include {src : Text} {h : Head} (hh : h ∈ (parse src).root.walk fun _ => true)
    (hname : h.name = "include") : h.IsPlain := by
  refine ⟨fun hkind => ?_, ?_⟩
  · rw [name_of_nameless hh (.inl hkind)] at hname
    cases hname
  · rw [hname]
    decide

/-- An edit stands inside the tag whose name it replaces. -/
theorem inside_of_renames {src : Text} {e : Edit} {h : Head} (hh : h ∈ (parse src).root.walk fun _ => true)
    (he : e.Renames src h) : h.start ≤ e.start ∧ e.stop ≤ h.openEnd := by
  have hmarkup := markup_inside hh he.kind
  have hbounds := he.bounds
  omega

section Templates

variable {src : Text} {edits : List Edit}
variable (hedits : ∀ e ∈ edits, ∃ h ∈ (parse src).root.walk fun _ => true, e.Renames src h)

include hedits

/-- The edits stand apart from each other. -/
theorem renaming_of_renames : Renaming src edits where
  start_lt_stop e he := by
    obtain ⟨h, _, hrenames⟩ := hedits e he
    have := hrenames.stop
    omega
  apart e he e' he' := by
    obtain ⟨h, hh, hrenames⟩ := hedits e he
    obtain ⟨h', hh', hrenames'⟩ := hedits e' he'
    have hinside := inside_of_renames hh hrenames
    have hinside' := inside_of_renames hh' hrenames'
    rcases eq_or_apart hh hh' hrenames.isPlain hrenames'.isPlain with rfl | hle | hle
    · obtain ⟨i, hfound, hstart⟩ := hrenames.found
      obtain ⟨j, hfound', hstart'⟩ := hrenames'.found
      obtain rfl := Option.some.inj (hfound.symm.trans hfound')
      have hsame : e'.start = e.start := by omega
      refine .inl ⟨hsame, ?_, hrenames'.text.trans hrenames.text.symm⟩
      rw [hrenames.stop, hrenames'.stop, hsame]
    · exact .inr (.inl (by omega))
    · exact .inr (.inr (by omega))
  stop_eq e he := (hedits e he).choose_spec.2.stop
  old_eq e he := (hedits e he).choose_spec.2.bounds.2.2
  text_eq e he := (hedits e he).choose_spec.2.text

/-- **The tags with an edit in them** are those whose names are replaced. -/
theorem hasEdit_iff {h : Head} (hh : h ∈ (parse src).root.walk fun _ => true) (hplain : h.IsPlain) :
    hasEdit edits h.start h.openEnd = true ↔ ∃ e ∈ edits, e.Renames src h := by
  constructor
  · intro hany
    obtain ⟨e, he, hinside⟩ := List.any_eq_true.1 hany
    have hinside : h.start ≤ e.start ∧ e.stop ≤ h.openEnd := by simpa using hinside
    obtain ⟨g, hg, hrenames⟩ := hedits e he
    have hinside' := inside_of_renames hg hrenames
    have hstop := hrenames.stop
    rcases eq_or_apart hh hg hplain hrenames.isPlain with rfl | hle | hle
    · exact ⟨e, he, hrenames⟩
    · omega
    · omega
  · rintro ⟨e, he, hrenames⟩
    obtain ⟨hlo, hhi⟩ := inside_of_renames hh hrenames
    exact hasEdit_of_mem he hlo hhi

/-- No edit stands in a raw node. -/
theorem rawEdits_eq_nil : seenAll (rawEdits edits) (parse src).root.children = [] := by
  refine List.flatMap_eq_nil_iff.2 fun h hh => if_neg fun hraw => ?_
  have hplain : h.IsPlain := by
    refine ⟨by rw [hraw.1]; nofun, ?_⟩
    rw [name_of_nameless (mem_walk_of_below hh) (.inr hraw.1)]
    decide
  obtain ⟨e, he, hrenames⟩ := (hasEdit_iff hedits (mem_walk_of_below hh) hplain).1 hraw.2
  have hkind := hrenames.kind
  rw [hraw.1] at hkind
  cases hkind

section Places

variable (hplace : LinesInPlace src)

include hplace

/-- **All edits in a token stand at its name**, or at names of its lines. -/
theorem holds_of_renames {tok : Token} (htok : tok ∈ tokens src) : tok.Holds src edits := by
  intro e he
  have hfollows := (tiles_tokens src).follows
  obtain ⟨h, hh, hrenames⟩ := hedits e he
  obtain ⟨tok', htok', hnamed⟩ := exists_namedBy hplace hh hrenames.kind hrenames.name
  have hnames := hnamed.names e hrenames
  have hbounds := hnames.bounds hrenames.stop (hfollows.placed htok').2.1
  rcases hfollows.eq_or_apart htok htok' with rfl | hle | hle
  · exact .inr (.inr hnames)
  · exact .inr (.inl (by omega))
  · exact .inl (by omega)

omit hedits hplace in
/-- A place that no edit stands across comes behind another one if it did before. -/
theorem move_le_iff (hrenaming : Renaming src edits) {i j : Nat} (hi : Between edits i) (hsize : i ≤ src.length)
    (hj : Between edits j) :
    (Recast.ofEdits src edits).move i ≤ (Recast.ofEdits src edits).move j ↔ i ≤ j := by
  refine ⟨fun hle => Nat.le_of_not_lt fun hlt => ?_, length_edited_mono src edits⟩
  -- what stands between the places does not become empty
  have hne : edited src edits j i ≠ [] := by
    refine renamed_induction (Q := fun t => t ≠ []) hrenaming (fun u v _ => ?_) (Nat.le_of_lt hlt) hj hi ?_
    · simp [isWord_render.ne_nil]
    · refine List.ne_nil_of_length_pos ?_
      rw [Text.length_slice hsize]
      omega
  have hmove := move_add src edits (Nat.le_of_lt hlt)
  have hpos := List.length_pos_iff.2 hne
  omega

/-- Edits that rename tags of a template change its tokens, and nothing else. -/
theorem connects_of_renames : (Recast.ofEdits src edits).Connects
    (fun i => Between edits i ∧ i ≤ src.length) (rawEdits edits)
    (fun tok => tok.Placed ∧ tok.stop ≤ src.length ∧ tok.Holds src edits)
    src (edited src edits 0 src.length) := by
  have hrenaming := renaming_of_renames hedits
  have hbounds {tok : Token} (hplaced : tok.Placed) (hholds : tok.Holds src edits) {e : Edit} (he : e ∈ edits) :
      e.stop ≤ tok.start ∨ tok.stop ≤ e.start ∨ tok.start ≤ e.start ∧ e.stop ≤ tok.stop :=
    (hholds e he).imp_right fun hedit => hedit.imp_right fun hnames =>
      hnames.bounds (hrenaming.stop_eq e he) hplaced
  refine
    { keeps := Recast.keeps_ofEdits src edits
      text_eq := fun tok htok hkind => ?_
      lines := fun tok htok hkind hrole line hline => ?_
      lines_eq := fun tok htok hkind hrole =>
        liquidLines_edited hrenaming htok.2.2 (name_of_lines hrole) htok.1 htok.2.1
      raw_eq := fun tok htok hline hbad => ?_
      tokens_eq := tokens_edited hrenaming fun tok htok => holds_of_renames hedits hplace htok
      holds := fun tok htok => ?_
      within := fun tok htok => ?_
      le_iff := fun i j hi hj => move_le_iff hrenaming hi.1 hi.2 hj.1
      start_eq := congrArg List.length (edited_self src edits 0)
      stop_eq := rfl }
  · have hfree := htok.2.2.untouched fun _ _ hnames => hkind hnames.kind_eq
    rw [recast_of_untouched hrenaming htok.1 hfree]
    rfl
  · obtain ⟨hplaced, hsize, hholds⟩ := htok
    obtain ⟨_, hplaced', hstop⟩ := (follows_liquidLines tok.markup tok.markupStart).placed hline
    have := hplaced.markup_le_stop
    exact ⟨hplaced', by omega, hholds.line hrenaming (name_of_lines hrole) hplaced hline⟩
  · obtain ⟨hplaced, hsize, hholds⟩ := htok
    have hle := Nat.le_of_lt hplaced.start_lt_stop
    have hfree : Untouched edits tok.start tok.stop := by
      intro e he
      rcases hbounds hplaced hholds he with hlo | hhi | ⟨hlo, hhi⟩
      · exact .inl hlo
      · exact .inr hhi
      · have hraw : rawEdits edits (rawNode tok.start tok.stop (Text.slice src tok.start tok.stop)).head = [()] :=
          if_pos ⟨rfl, hasEdit_of_mem he hlo hhi⟩
        rw [rawNode, seenAll_leaf] at hbad
        exact absurd (hraw.symm.trans hbad) (List.cons_ne_nil _ _)
    rw [← edited_of_untouched hrenaming.toEditsApart hle hfree]
    exact slice_edited hle hsize
  · obtain ⟨_, hplaced, hstop⟩ := (tiles_tokens src).follows.placed htok
    exact ⟨hplaced, hstop, holds_of_renames hedits hplace htok⟩
  · obtain ⟨hplaced, hsize, hholds⟩ := htok
    have := hplaced.start_lt_stop
    refine ⟨fun e he => ?_, by omega⟩
    have := hbounds hplaced hholds he
    omega

/-- **Renaming tags of a template changes their names**, and the markups of the tags that hold them as lines. -/
theorem parse_renamed :
    (parse (edited src edits 0 src.length)).root = (parse src).root.recast (.ofEdits src edits) ∧
      (parse (edited src edits 0 src.length)).warnings =
        (parse src).warnings.map (Warning.moved (Recast.ofEdits src edits).move) :=
  parse_recast (connects_of_renames hedits hplace) (blind_rawEdits edits) (rawEdits_eq_nil hedits)

end Places

end Templates

end Liquid
end LiquidLint
