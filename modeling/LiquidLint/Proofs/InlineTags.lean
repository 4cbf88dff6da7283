import LiquidLint.Proofs.TreePlaces

/-!
# Inline tags

Only blocks and their branches go on behind their opening tags.  A tag that stands alone is neither, so
its node ends where the tag ends (`stop_of_inline`).

While the tree is built, what is open are blocks and branches (`Frame.Alone`), and every finished node
has the property.  Each step keeps this, and so does ending what is open.
-/

namespace LiquidLint
namespace Liquid

mutual

/-- What holds everywhere in a tree holds of a node with each head that a walk comes to. -/
theorem Node.exists_of_walk {P : Node → Prop} : (n : Node) → n.Everywhere P → {h : Head} →
    h ∈ n.walk (fun _ => true) → ∃ m : Node, m.head = h ∧ P m
  | .mk h cs, hn, h', hh' => by
    cases hn with
    | mk here below =>
      rw [Node.walk, if_pos rfl] at hh'
      rcases List.mem_cons.1 hh' with rfl | hh'
      · exact ⟨.mk h' cs, rfl, here⟩
      · exact Node.exists_of_walkAll cs below hh'

theorem Node.exists_of_walkAll {P : Node → Prop} : (ns : List Node) →
    (∀ n ∈ ns, n.Everywhere P) → {h : Head} → h ∈ Node.walkAll (fun _ => true) ns →
    ∃ m : Node, m.head = h ∧ P m
  | [], _, h, hh => by cases hh
  | n :: rest, hns, h, hh => by
    rw [Node.walkAll] at hh
    rcases List.mem_append.1 hh with hh | hh
    · exact Node.exists_of_walk n (hns n (List.mem_cons_self ..)) hh
    · exact Node.exists_of_walkAll rest (fun m hm => hns m (List.mem_cons_of_mem _ hm)) hh

end

/-- A node of a tag that stands alone ends where the tag ends. -/
def Node.EndsWithTag (n : Node) : Prop := tagRole n.head.name = .inline → n.head.stop = n.head.openEnd

/-- The tags that stand alone end their nodes, everywhere in a tree. -/
def Node.Alone (n : Node) : Prop := n.Everywhere Node.EndsWithTag

theorem alone_mk {h : Head} {cs : List Node} (hh : tagRole h.name = .inline → h.stop = h.openEnd)
    (hcs : ∀ c ∈ cs, c.Alone) : (Node.mk h cs).Alone := .mk hh hcs

theorem alone_leaf {h : Head} (hh : h.stop = h.openEnd) : (Node.leaf h).Alone :=
  alone_mk (fun _ => hh) fun _ hc => (List.not_mem_nil hc).elim

/-- What is open are a block and a branch, and what is finished in them has the property. -/
structure Frame.Alone (f : Frame) : Prop where
  opens : tagRole f.block.name = .opens
  done : ∀ n ∈ f.done, n.Alone
  branch : ∀ h cs, f.branch = some (h, cs) → tagRole h.name = .branch ∧ ∀ n ∈ cs, n.Alone

/-- Everything that is finished in the tree under construction has the property. -/
structure Builder.Alone (b : Builder) : Prop where
  done : ∀ n ∈ b.done, n.Alone
  frames : ∀ f ∈ b.frames, f.Alone

namespace Frame.Alone

variable {f : Frame} {n : Node} {tok : Token}

theorem finished (h : f.Alone) : f.Finished (fun h => tagRole h.name = .branch) Node.Alone :=
  ⟨h.done, h.branch⟩

/-- An open branch is no tag that stands alone. -/
theorem branch_alone (stop : Nat) (h : Head) (cs : List Node) (hrole : tagRole h.name = .branch)
    (hcs : ∀ n ∈ cs, n.Alone) : (Node.mk { h with stop := stop } cs).Alone :=
  alone_mk (fun hinline => nomatch hrole.symm.trans hinline) hcs

theorem push (h : f.Alone) (hn : n.Alone) : (f.push n).Alone := by
  obtain ⟨hdone, hbranch⟩ := h.finished.push hn
  exact ⟨by rw [Frame.block_push]; exact h.opens, hdone, hbranch⟩

theorem childrenAt (h : f.Alone) (stop : Nat) : ∀ n ∈ f.childrenAt stop, n.Alone :=
  h.finished.childrenAt (branch_alone stop)

theorem cutShort (h : f.Alone) (stop : Nat) : (f.cutShort stop).Alone :=
  alone_mk (fun hinline => nomatch h.opens.symm.trans hinline) (h.childrenAt stop)

theorem closeWith (h : f.Alone) (tok : Token) : (f.closeWith tok).Alone :=
  alone_mk (fun hinline => nomatch h.opens.symm.trans hinline) (h.childrenAt tok.start)

theorem openBranch (h : f.Alone) (hrole : tagRole tok.name = .branch) : (f.openBranch tok).Alone := by
  obtain ⟨hdone, hbranch⟩ := h.finished.openBranch hrole (branch_alone tok.start)
  exact ⟨h.opens, hdone, hbranch⟩

end Frame.Alone

namespace Builder.Alone

theorem empty (ws : List Warning) : ({ warnings := ws } : Builder).Alone :=
  ⟨fun _ hn => (List.not_mem_nil hn).elim, fun _ hf => (List.not_mem_nil hf).elim⟩

variable {b : Builder} {f : Frame} {outer : List Frame} {n : Node} {tok : Token} {src : Text}

theorem of_cons (h : b.Alone) (hframes : b.frames = f :: outer) :
    f.Alone ∧ ({ b with frames := outer } : Builder).Alone := by
  have hall := h.frames
  rw [hframes] at hall
  exact ⟨hall f (List.mem_cons_self ..), h.done, fun f' hf' => hall f' (List.mem_cons_of_mem _ hf')⟩

theorem cons (hf : f.Alone) (h : ({ b with frames := outer } : Builder).Alone) :
    ({ b with frames := f :: outer } : Builder).Alone := by
  refine ⟨h.done, fun f' hf' => ?_⟩
  rcases List.mem_cons.1 hf' with rfl | hf'
  · exact hf
  · exact h.frames f' hf'

theorem push (h : b.Alone) (hn : n.Alone) : (b.push n).Alone := by
  obtain ⟨hdone, hframes⟩ := forall_push h.done h.frames hn fun _ _ _ hf => hf.push hn
  exact ⟨hdone, hframes⟩

theorem cutInnermost (h : b.Alone) (stop : Nat) : (b.cutInnermost stop).Alone := by
  cases hframes : b.frames with
  | nil =>
    unfold Builder.cutInnermost
    rwa [hframes]
  | cons f outer =>
    obtain ⟨hf, houter⟩ := h.of_cons hframes
    rw [cutInnermost_cons hframes]
    have hwarn : (({ b with frames := outer } : Builder).warn (.neverClosed f.block.name)
        f.block.start).Alone := ⟨houter.done, houter.frames⟩
    exact hwarn.push (hf.cutShort stop)

theorem finish (h : b.Alone) (stop : Nat) : ∀ n ∈ (b.finish stop).done, n.Alone :=
  (finish_induction stop (fun _ _ _ _ h => h.cutInnermost stop) b h).1.done

theorem closeThrough {block : Text} (h : b.Alone) (hopen : ∃ f ∈ b.frames, f.block.name = block) :
    (b.closeThrough block tok).Alone := by
  refine closeThrough_induction (P := Builder.Alone) (Q := Builder.Alone)
    (fun _ _ _ _ h => h.cutInnermost _) (fun b f outer hframes _ h => ?_) b hopen h
  obtain ⟨hf, houter⟩ := h.of_cons hframes
  exact houter.push (hf.closeWith tok)

/-- **One token** adds a node that ends with its tag, or opens or ends something. -/
theorem add (h : b.Alone) (hlines : ∀ ws, ∀ n ∈ (addLines src ws tok).done, n.Alone) :
    (b.add src tok).Alone := by
  have hadded := added_add src b tok
  generalize b.add src tok = after at hadded
  cases hadded with
  | leaf hleaf =>
    refine h.push ?_
    cases hleaf <;> exact alone_leaf rfl
  | misfit d _ _ _ =>
    have hwarn : (b.warn d tok.start).Alone := ⟨h.done, h.frames⟩
    exact hwarn.push (alone_leaf rfl)
  | opens _ _ hrole => exact cons ⟨hrole, fun _ hn => (List.not_mem_nil hn).elim, fun _ _ hsome => nomatch hsome⟩ h
  | branch _ _ hrole hframes _ =>
    obtain ⟨hf, houter⟩ := h.of_cons hframes
    exact cons (hf.openBranch hrole) houter
  | closes _ _ hopen => exact h.closeThrough hopen
  | stray _ _ _ => exact ⟨h.done, h.frames⟩
  | lines _ _ _ =>
    have hwarn : ({ b with warnings := (addLines src b.warnings tok).warnings } : Builder).Alone :=
      ⟨h.done, h.frames⟩
    exact hwarn.push (alone_mk (fun _ => rfl) (hlines b.warnings))

theorem addTokens {toks : List Token} : ∀ {b : Builder}, b.Alone → (b.addTokens src toks).Alone := by
  induction toks using tokens_induction with
  | nil =>
    intro b h
    rwa [addTokens_nil]
  | cons tok rest ihlines ih =>
    intro b h
    rw [addTokens_cons]
    exact ih (h.add fun ws => (ihlines (empty ws)).finish tok.stop)

end Builder.Alone

/-- **The node of a tag that stands alone ends with the tag.** -/
theorem stop_of_inline {src : Text} {h : Head} (hh : h ∈ (parse src).root.walk fun _ => true)
    (hrole : tagRole h.name = .inline) : h.stop = h.openEnd := by
  have hempty := Builder.Alone.empty (unterminatedWarnings (tokens src))
  have hroot : (parse src).root.Alone := by
    have hdocument : tagRole [] ≠ .inline := by decide
    unfold parse
    exact alone_mk (fun hinline => absurd hinline hdocument) (hempty.addTokens.finish src.length)
  obtain ⟨n, hhead, hn⟩ := Node.exists_of_walk _ hroot hh
  rw [← hhead] at hrole ⊢
  exact hn hrole

/-- A node of a template stands inside it. -/
theorem placed_of_walk {src : Text} {h : Head} (hh : h ∈ (parse src).root.walk fun _ => true) :
    h.start ≤ h.openEnd ∧ h.openEnd ≤ h.stop ∧ h.stop ≤ src.length := by
  obtain ⟨n, hhead, hn⟩ := Node.exists_of_walk _ (wellPlaced_root src) hh
  rw [← hhead]
  exact ⟨hn.start_le_openEnd, hn.openEnd_le_stop, hn.stop_le_size⟩

end Liquid
end LiquidLint
