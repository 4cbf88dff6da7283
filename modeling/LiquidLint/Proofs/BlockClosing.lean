import LiquidLint.Proofs.BlockNesting

/-!
# Warnings and the grammar

A template is read without warnings exactly when each of its openers has a closer and its tokens
derive from the grammar of blocks; then each block of its tree has its end tag
(`warnings_eq_nil_iff_items`).

A block that ends without its end tag leaves a warning, so in a run without new warnings every node
that is finished has only closed blocks below it.
-/

namespace LiquidLint
namespace Liquid

/-- Every block of the nodes has its end tag. -/
def AllClosed (ns : List Node) : Prop :=
  ∀ h ∈ Node.walkAll (fun _ => true) ns, h.block = true → h.closed = true

namespace AllClosed

variable {ns ms cs : List Node} {h : Head}

theorem nil : AllClosed [] := nofun

theorem append (hns : AllClosed ns) (hms : AllClosed ms) : AllClosed (ns ++ ms) := by
  induction ns with
  | nil => exact hms
  | cons n rest ih =>
    intro h hh
    simp only [List.cons_append, Node.walkAll] at hh
    rcases List.mem_append.1 hh with hh | hh
    · exact hns h (List.mem_append_left _ hh)
    · exact ih (fun h' hh' => hns h' (List.mem_append_right _ hh')) h hh

/-- A node is added with what lies below it. -/
theorem mk (hh : h.block = true → h.closed = true) (hcs : AllClosed cs) : AllClosed [.mk h cs] := by
  intro h' hmem
  simp only [Node.walkAll, Node.walk, List.append_nil, if_true] at hmem
  rcases List.mem_cons.1 hmem with rfl | hmem
  · exact hh
  · exact hcs h' hmem

theorem leaf (hh : h.block = false) : AllClosed [.leaf h] :=
  mk (fun hblock => by rw [hh] at hblock; cases hblock) nil

end AllClosed

/-- The finished nodes of an open block have only closed blocks, and its open branch is no block. -/
structure Frame.AllClosed (f : Frame) : Prop where
  done : Liquid.AllClosed f.done
  branch : ∀ h cs, f.branch = some (h, cs) → h.block = false ∧ Liquid.AllClosed cs

namespace Frame.AllClosed

variable {f : Frame}

theorem push {n : Node} (hf : f.AllClosed) (hn : Liquid.AllClosed [n]) : (f.push n).AllClosed := by
  unfold Frame.push
  cases hopen : f.branch with
  | none => exact ⟨hf.done.append hn, fun _ _ h => nomatch h⟩
  | some opened =>
    obtain ⟨h, cs⟩ := opened
    obtain ⟨hblock, hcs⟩ := hf.branch h cs hopen
    refine ⟨hf.done, fun h' cs' hsome => ?_⟩
    obtain ⟨rfl, rfl⟩ := Prod.mk.inj (Option.some.inj hsome)
    exact ⟨hblock, hcs.append hn⟩

theorem childrenAt (hf : f.AllClosed) (stop : Nat) : Liquid.AllClosed (f.childrenAt stop) := by
  unfold Frame.childrenAt
  cases hopen : f.branch with
  | none => exact hf.done
  | some opened =>
    obtain ⟨h, cs⟩ := opened
    obtain ⟨hblock, hcs⟩ := hf.branch h cs hopen
    refine hf.done.append (.mk (fun htrue => ?_) hcs)
    exact absurd (hblock.symm.trans htrue) (by decide)

end Frame.AllClosed

namespace Builder

/-- The finished nodes of the tree under construction have only closed blocks. -/
structure AllClosed (b : Builder) : Prop where
  done : Liquid.AllClosed b.done
  frames : ∀ f ∈ b.frames, f.AllClosed

variable {src : Text} {b : Builder} {tok : Token} {f : Frame} {outer : List Frame}

theorem AllClosed.empty (warnings : List Warning) : ({ warnings } : Builder).AllClosed :=
  ⟨.nil, fun _ hf => (List.not_mem_nil hf).elim⟩

theorem AllClosed.of_cons (hb : b.AllClosed) (hframes : b.frames = f :: outer) :
    f.AllClosed ∧ ({ b with frames := outer } : Builder).AllClosed := by
  have hall := hb.frames
  rw [hframes] at hall
  exact ⟨hall f (List.mem_cons_self ..), hb.done, fun g hg => hall g (List.mem_cons_of_mem _ hg)⟩

theorem AllClosed.cons (hf : f.AllClosed) (hb : ({ b with frames := outer } : Builder).AllClosed) :
    ({ b with frames := f :: outer } : Builder).AllClosed := by
  refine ⟨hb.done, fun g hg => ?_⟩
  rcases List.mem_cons.1 hg with rfl | hg
  · exact hf
  · exact hb.frames g hg

theorem AllClosed.push {n : Node} (hb : b.AllClosed) (hn : Liquid.AllClosed [n]) :
    (b.push n).AllClosed := by
  unfold Builder.push
  cases hframes : b.frames with
  | nil => exact ⟨hb.done.append hn, fun f hf => nomatch hf⟩
  | cons f outer =>
    obtain ⟨hf, houter⟩ := hb.of_cons hframes
    exact .cons (hf.push hn) houter

theorem LeafOf.allClosed {n : Node} (h : LeafOf src b tok n) : Liquid.AllClosed [n] := by
  cases h with
  | text _ => exact .leaf rfl
  | «variable» _ => exact .leaf rfl
  | comment _ _ _ => exact .leaf rfl
  | inline _ _ _ => exact .leaf rfl

/-- A step without a warning finishes closed blocks only. -/
theorem AllClosed.add (hb : b.AllClosed) (h : (b.add src tok).warnings = b.warnings)
    (hlines : (addLines src b.warnings tok).warnings = b.warnings →
      Liquid.AllClosed (addLines src b.warnings tok).done) : (b.add src tok).AllClosed := by
  have hadded := added_add src b tok
  generalize b.add src tok = after at hadded h
  cases hadded with
  | leaf hleaf => exact hb.push hleaf.allClosed
  | misfit d _ _ _ =>
    have hwarn : (b.warn d tok.start).AllClosed := ⟨hb.done, hb.frames⟩
    exact hwarn.push (.leaf rfl)
  | opens _ _ _ => exact .cons ⟨.nil, fun _ _ h => nomatch h⟩ hb
  | branch _ _ _ hframes _ =>
    obtain ⟨hf, houter⟩ := hb.of_cons hframes
    refine .cons ⟨hf.childrenAt tok.start, fun h' cs' hsome => ?_⟩ houter
    obtain ⟨rfl, rfl⟩ := Prod.mk.inj (Option.some.inj hsome)
    exact ⟨rfl, .nil⟩
  | closes _ _ hopen =>
    obtain ⟨f, outer, hframes, rfl⟩ := innermost_of_warnings_closeThrough hopen h
    obtain ⟨hf, houter⟩ := hb.of_cons hframes
    rw [closeThrough_innermost hframes]
    exact houter.push (.mk (fun _ => rfl) (hf.childrenAt tok.start))
  | stray _ _ _ => exact ⟨hb.done, hb.frames⟩
  | lines _ _ _ =>
    rw [warnings_push] at h
    have hb' : ({ b with warnings := (addLines src b.warnings tok).warnings } : Builder).AllClosed :=
      ⟨hb.done, hb.frames⟩
    exact hb'.push (.mk nofun (hlines h))

/-- **A run without a warning closes every block.** -/
theorem AllClosed.run (src : Text) (toks : List Token) {b : Builder} {stop : Nat}
    (hb : b.AllClosed) (h : ((b.addTokens src toks).finish stop).warnings = b.warnings) :
    Liquid.AllClosed ((b.addTokens src toks).finish stop).done := by
  induction toks using tokens_induction generalizing b stop with
  | nil =>
    rw [addTokens_nil] at *
    rw [finish, warnings_finish_iff.1 h]
    exact hb.done
  | cons tok rest ihlines ihrest =>
    rw [addTokens_cons] at *
    have hsame := warnings_add_of_run h
    refine ihrest (hb.add hsame fun hlines => ?_) (h.trans hsame.symm)
    exact ihlines (.empty b.warnings) hlines

end Builder

theorem unterminatedWarnings_eq_nil_iff {toks : List Token} :
    unterminatedWarnings toks = [] ↔ ∀ tok ∈ toks, ∀ d, tok.kind ≠ .unterminated d := by
  unfold unterminatedWarnings
  rw [List.filterMap_eq_nil_iff]
  constructor
  · intro h tok htok d hkind
    have := h tok htok
    rw [hkind] at this
    cases this
  · intro h tok htok
    cases hkind : tok.kind with
    | unterminated d => exact absurd hkind (h tok htok d)
    | text | «variable» | tag => rfl

/-- The warning about an opener without a closer is never taken back. -/
theorem unterminatedWarnings_subset (src : Text) :
    unterminatedWarnings (tokens src) ⊆ (parse src).warnings := by
  intro w hw
  have hgrow := (Builder.warnings_prefix_addTokens src (tokens src)
    { warnings := unterminatedWarnings (tokens src) }).trans (Builder.warnings_prefix_finish _ src.length)
  exact List.mem_mergeSort.2 (hgrow.subset hw)

/-- **Templates of the block grammar are those without warnings.**  A template is read without
warnings exactly when every opener outside verbatim bodies has a closer and the tokens derive from
the grammar; and then every block of its tree is closed. -/
theorem warnings_eq_nil_iff_items (src : Text) :
    ((parse src).warnings = [] ↔
      (∀ tok ∈ tokens src, ∀ d, tok.kind ≠ .unterminated d) ∧ Items (tokens src)) ∧
    ((parse src).warnings = [] →
      ∀ h ∈ (parse src).root.walk (fun _ => true), h.block = true → h.closed = true) := by
  let start : Builder := { warnings := unterminatedWarnings (tokens src) }
  let run := (start.addTokens src (tokens src)).finish src.length
  have hsorted : (parse src).warnings = [] ↔ run.warnings = [] := by
    show run.warnings.mergeSort _ = [] ↔ _
    rw [← List.length_eq_zero_iff, List.length_mergeSort, List.length_eq_zero_iff]
  -- a run starts with the warnings about openers and never takes one back
  have hgrow : start.warnings <+: run.warnings :=
    (Builder.warnings_prefix_addTokens src _ start).trans (Builder.warnings_prefix_finish _ _)
  have hsilent : run.warnings = [] ↔ start.warnings = [] ∧ run.warnings = start.warnings := by
    constructor
    · intro h
      rw [h] at hgrow
      have hnil := List.prefix_nil.1 hgrow
      exact ⟨hnil, h.trans hnil.symm⟩
    · rintro ⟨hnil, h⟩
      exact h.trans hnil
  constructor
  · rw [hsorted, hsilent]
    refine Iff.trans ?_ (and_congr_left' unterminatedWarnings_eq_nil_iff)
    refine and_congr_right fun hnil => ?_
    refine Builder.warnings_run_iff src (tokens src) start src.length ?_
    exact ⟨unterminatedWarnings_eq_nil_iff.1 hnil, (reads_tokensFrom 0 src).commentsFree, nofun, nofun⟩
  · intro h
    obtain ⟨_, hsame⟩ := hsilent.1 (hsorted.1 h)
    have hstart : start.AllClosed := .empty _
    have hclosed : AllClosed [(parse src).root] := .mk nofun (hstart.run src (tokens src) hsame)
    intro head hhead
    exact hclosed head (List.mem_append_left _ hhead)

end Liquid
end LiquidLint
