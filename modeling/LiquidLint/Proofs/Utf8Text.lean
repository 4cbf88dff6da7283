import LiquidLint.Text.Utf8

/-!
# Well-formed texts

A text is well-formed if it is the UTF-8 form of some characters.  `Encodes` lists the bytes of a
character by their number; writing a character and reading one are the two directions of that list
(`encodes_ofChar`, `nextChar?_of_encodes`, `encodes_of_nextChar?`).

Replacing what is invalid makes a text well-formed and leaves a well-formed text alone.  Since an ASCII
byte is a character wherever it stands, a well-formed text can be cut in front of it and behind it.
-/

namespace LiquidLint
namespace Text

/-! ## The bytes of a character -/

/-- The byte continues a character. -/
def Tail (b : UInt8) : Prop := 0x80 ≤ b.toNat ∧ b.toNat ≤ 0xBF

/-- The bytes of the character with the number `n`. -/
inductive Encodes (n : Nat) : Text → Prop where
  | one {a : UInt8} (ha : a.toNat ≤ 0x7F) (hn : n = a.toNat) : Encodes n [a]
  | two {a b : UInt8} (ha : 0xC2 ≤ a.toNat ∧ a.toNat ≤ 0xDF) (hb : Tail b)
      (hn : n = 64 * (a.toNat - 0xC0) + (b.toNat - 0x80)) : Encodes n [a, b]
  | three {a b c : UInt8} (ha : 0xE0 ≤ a.toNat ∧ a.toNat ≤ 0xEF) (hb : Tail b) (hc : Tail c)
      (hlong : a.toNat = 0xE0 → 0xA0 ≤ b.toNat) (hsurrogate : a.toNat = 0xED → b.toNat ≤ 0x9F)
      (hn : n = 64 * (64 * (a.toNat - 0xE0) + (b.toNat - 0x80)) + (c.toNat - 0x80)) :
      Encodes n [a, b, c]
  | four {a b c d : UInt8} (ha : 0xF0 ≤ a.toNat ∧ a.toNat ≤ 0xF4) (hb : Tail b) (hc : Tail c)
      (hd : Tail d) (hlong : a.toNat = 0xF0 → 0x90 ≤ b.toNat)
      (hlast : a.toNat = 0xF4 → b.toNat ≤ 0x8F)
      (hn : n = 64 * (64 * (64 * (a.toNat - 0xF0) + (b.toNat - 0x80)) + (c.toNat - 0x80)) +
        (d.toNat - 0x80)) : Encodes n [a, b, c, d]

theorem toNat_ofNat {n : Nat} (h : n < 256) : (UInt8.ofNat n).toNat = n := by
  rw [UInt8.toNat_ofNat', Nat.mod_eq_of_lt h]

/-- A character is written in the bytes of its number. -/
theorem encodes_ofChar (c : Char) : Encodes c.toNat (ofChar c) := by
  have hvalid : c.toNat < 0xD800 ∨ 0xDFFF < c.toNat ∧ c.toNat < 0x110000 := c.valid
  have hn : c.val.toNat = c.toNat := rfl
  unfold ofChar String.utf8EncodeChar
  rw [hn]
  generalize c.toNat = n at *
  dsimp only
  -- the last byte, and the one before it
  have hlast : (UInt8.ofNat (n % 0x40 + 0x80)).toNat = n % 0x40 + 0x80 := toNat_ofNat (by omega)
  have hnext : (UInt8.ofNat (n / 64 % 0x40 + 0x80)).toNat = n / 64 % 0x40 + 0x80 :=
    toNat_ofNat (by omega)
  by_cases h1 : n ≤ 0x7F
  · have ha : (UInt8.ofNat n).toNat = n := toNat_ofNat (by omega)
    rw [if_pos h1]
    exact .one (by omega) (by omega)
  · rw [if_neg h1]
    by_cases h2 : n ≤ 0x7FF
    · have ha : (UInt8.ofNat (n / 64 % 0x20 + 0xC0)).toNat = n / 64 % 0x20 + 0xC0 :=
        toNat_ofNat (by omega)
      rw [if_pos h2]
      exact .two (by omega) (by unfold Tail; omega) (by omega)
    · rw [if_neg h2]
      by_cases h3 : n ≤ 0xFFFF
      · have ha : (UInt8.ofNat (n / 4096 % 0x10 + 0xE0)).toNat = n / 4096 % 0x10 + 0xE0 :=
          toNat_ofNat (by omega)
        rw [if_pos h3]
        exact .three (by omega) (by unfold Tail; omega) (by unfold Tail; omega) (by omega) (by omega)
          (by omega)
      · have ha : (UInt8.ofNat (n / 262144 % 0x08 + 0xF0)).toNat = n / 262144 % 0x08 + 0xF0 :=
          toNat_ofNat (by omega)
        have hb : (UInt8.ofNat (n / 4096 % 0x40 + 0x80)).toNat = n / 4096 % 0x40 + 0x80 :=
          toNat_ofNat (by omega)
        rw [if_neg h3]
        exact .four (by omega) (by unfold Tail; omega) (by unfold Tail; omega)
          (by unfold Tail; omega) (by omega) (by omega) (by omega)

namespace Encodes

variable {n : Nat} {t t' : Text}

theorem valid (h : Encodes n t) : n.isValidChar := by
  unfold Nat.isValidChar
  cases h with
  | one ha hn => omega
  | two ha hb hn =>
    unfold Tail at hb
    omega
  | three ha hb hc hlong hsurrogate hn =>
    unfold Tail at hb hc
    omega
  | four ha hb hc hd hlong hlast hn =>
    unfold Tail at hb hc hd
    omega

/-- The bytes of a number are those of its character. -/
theorem ofChar_eq (h : Encodes n t) : ofChar (Char.ofNat n) = t := by
  have hval : (Char.ofNat n).val.toNat = n := by
    unfold Char.ofNat
    rw [dif_pos h.valid]
    rfl
  have hbyte (m : Nat) (a : UInt8) (hm : m = a.toNat) : UInt8.ofNat m = a := by
    rw [hm, UInt8.ofNat_toNat]
  unfold ofChar String.utf8EncodeChar
  rw [hval]
  dsimp only
  cases h with
  | @one a ha hn => rw [if_pos (by omega), hbyte n a hn]
  | @two a b ha hb hn =>
    unfold Tail at hb
    rw [if_neg (by omega), if_pos (by omega), hbyte _ a (by omega), hbyte _ b (by omega)]
  | @three a b c ha hb hc hlong hsurrogate hn =>
    unfold Tail at hb hc
    rw [if_neg (by omega), if_neg (by omega), if_pos (by omega), hbyte _ a (by omega),
      hbyte _ b (by omega), hbyte _ c (by omega)]
  | @four a b c d ha hb hc hd hlong hlast hn =>
    unfold Tail at hb hc hd
    rw [if_neg (by omega), if_neg (by omega), if_neg (by omega), hbyte _ a (by omega),
      hbyte _ b (by omega), hbyte _ c (by omega), hbyte _ d (by omega)]

end Encodes

/-! ## Reading a character -/

theorem sequence?_eq (b : UInt8) :
    sequence? b =
      if 0xC2 ≤ b.toNat ∧ b.toNat ≤ 0xDF then some (1, 0x80, 0xBF)
      else if b.toNat = 0xE0 then some (2, 0xA0, 0xBF)
      else if b.toNat = 0xED then some (2, 0x80, 0x9F)
      else if 0xE1 ≤ b.toNat ∧ b.toNat ≤ 0xEF then some (2, 0x80, 0xBF)
      else if b.toNat = 0xF0 then some (3, 0x90, 0xBF)
      else if 0xF1 ≤ b.toNat ∧ b.toNat ≤ 0xF3 then some (3, 0x80, 0xBF)
      else if b.toNat = 0xF4 then some (3, 0x80, 0x8F)
      else none := by
  unfold sequence?
  simp only [Bool.and_eq_true, decide_eq_true_eq, UInt8.le_iff_toNat_le, ← UInt8.toNat_inj]
  rfl

theorem followers_cons (n : Nat) (lo hi b : UInt8) (t : Text) :
    followers (n + 1) lo hi (b :: t) =
      if lo.toNat ≤ b.toNat ∧ b.toNat ≤ hi.toNat then b :: followers n 0x80 0xBF t else [] := by
  rw [followers]
  simp only [Bool.and_eq_true, decide_eq_true_eq, UInt8.le_iff_toNat_le]

theorem followers_tail (n : Nat) {b : UInt8} (hb : Tail b) (t : Text) :
    followers (n + 1) 0x80 0xBF (b :: t) = b :: followers n 0x80 0xBF t := by
  rw [followers_cons]
  exact if_pos hb

theorem codePoint_eq (b : UInt8) (more : Text) :
    codePoint b more =
      more.foldl (fun n c => 64 * n + (c.toNat - 0x80))
        (if b.toNat < 0xE0 then b.toNat - 0xC0 else if b.toNat < 0xF0 then b.toNat - 0xE0
          else b.toNat - 0xF0) := by
  unfold codePoint
  simp only [UInt8.lt_iff_toNat_lt]
  rfl

/-- A character of several bytes is read when as many of them follow as its first byte says. -/
theorem nextChar?_cons {a lo hi : UInt8} {k : Nat} (more rest : Text) (ha : 0x80 ≤ a.toNat)
    (hseq : sequence? a = some (k, lo, hi)) (hmore : followers k lo hi (more ++ rest) = more)
    (hlength : more.length = k) :
    nextChar? (a :: more ++ rest) = some (Char.ofNat (codePoint a more), rest) := by
  have hlarge : ¬ a < 0x80 := fun h => absurd (UInt8.lt_iff_toNat_lt.1 h) (Nat.not_lt.2 ha)
  rw [List.cons_append, nextChar?, if_neg hlarge, hseq]
  dsimp only
  rw [hmore, if_pos hlength, ← hlength, List.drop_left]

/-- The bytes of a character are read as that character. -/
theorem nextChar?_of_encodes {n : Nat} {t : Text} (h : Encodes n t) (rest : Text) :
    nextChar? (t ++ rest) = some (Char.ofNat n, rest) := by
  cases h with
  | @one a ha hn =>
    have hsmall : a < 0x80 := UInt8.lt_iff_toNat_lt.2 (Nat.lt_succ_of_le ha)
    rw [List.singleton_append, nextChar?, if_pos hsmall, hn]
  | @two a b ha hb hn =>
    have hseq : sequence? a = some (1, 0x80, 0xBF) := by rw [sequence?_eq, if_pos ha]
    have hmore : followers 1 0x80 0xBF ([b] ++ rest) = [b] := by
      rw [List.singleton_append, followers_tail _ hb, followers]
    rw [nextChar?_cons [b] rest (by omega) hseq hmore rfl, codePoint_eq, if_pos (by omega), hn]
    rfl
  | @three a b c ha hb hc hlong hsurrogate hn =>
    obtain ⟨lo, hi, hseq, hb'⟩ : ∃ lo hi : UInt8, sequence? a = some (2, lo, hi) ∧
        lo.toNat ≤ b.toNat ∧ b.toNat ≤ hi.toNat := by
      rw [sequence?_eq, if_neg (by omega)]
      by_cases hfirst : a.toNat = 0xE0
      · exact ⟨0xA0, 0xBF, if_pos hfirst, hlong hfirst, hb.2⟩
      · rw [if_neg hfirst]
        by_cases hmiddle : a.toNat = 0xED
        · exact ⟨0x80, 0x9F, if_pos hmiddle, hb.1, hsurrogate hmiddle⟩
        · exact ⟨0x80, 0xBF, by rw [if_neg hmiddle, if_pos (by omega)], hb⟩
    have hmore : followers 2 lo hi ([b, c] ++ rest) = [b, c] := by
      rw [List.cons_append, List.singleton_append, followers_cons, if_pos hb',
        followers_tail _ hc, followers]
    rw [nextChar?_cons [b, c] rest (by omega) hseq hmore rfl, codePoint_eq, if_neg (by omega),
      if_pos (by omega), hn]
    rfl
  | @four a b c d ha hb hc hd hlong hlast hn =>
    obtain ⟨lo, hi, hseq, hb'⟩ : ∃ lo hi : UInt8, sequence? a = some (3, lo, hi) ∧
        lo.toNat ≤ b.toNat ∧ b.toNat ≤ hi.toNat := by
      rw [sequence?_eq, if_neg (by omega), if_neg (by omega), if_neg (by omega), if_neg (by omega)]
      by_cases hfirst : a.toNat = 0xF0
      · exact ⟨0x90, 0xBF, if_pos hfirst, hlong hfirst, hb.2⟩
      · rw [if_neg hfirst]
        by_cases hmiddle : a.toNat = 0xF4
        · exact ⟨0x80, 0x8F, by rw [if_neg (by omega), if_pos hmiddle], hb.1, hlast hmiddle⟩
        · exact ⟨0x80, 0xBF, if_pos (by omega), hb⟩
    have hmore : followers 3 lo hi ([b, c, d] ++ rest) = [b, c, d] := by
      rw [List.cons_append, List.cons_append, List.singleton_append, followers_cons, if_pos hb',
        followers_tail _ hc, followers_tail _ hd, followers]
    rw [nextChar?_cons [b, c, d] rest (by omega) hseq hmore rfl, codePoint_eq, if_neg (by omega),
      if_neg (by omega), hn]
    rfl

/-- What the first byte of a character says about the next ones. -/
theorem sequence?_cases {a lo hi : UInt8} {k : Nat} (h : sequence? a = some (k, lo, hi)) :
    0x80 ≤ lo.toNat ∧ hi.toNat ≤ 0xBF ∧
      (k = 1 ∧ 0xC2 ≤ a.toNat ∧ a.toNat ≤ 0xDF ∨
        k = 2 ∧ (0xE0 ≤ a.toNat ∧ a.toNat ≤ 0xEF) ∧ (a.toNat = 0xE0 → 0xA0 ≤ lo.toNat) ∧
          (a.toNat = 0xED → hi.toNat ≤ 0x9F) ∨
        k = 3 ∧ (0xF0 ≤ a.toNat ∧ a.toNat ≤ 0xF4) ∧ (a.toNat = 0xF0 → 0x90 ≤ lo.toNat) ∧
          (a.toNat = 0xF4 → hi.toNat ≤ 0x8F)) := by
  rw [sequence?_eq] at h
  repeat' split at h
  all_goals cases h
  all_goals
    simp only [UInt8.reduceToNat, true_and]
    omega

/-- As many bytes follow as should only if the first of them is one that may. -/
theorem exists_of_followers {k : Nat} {lo hi : UInt8} {t : Text}
    (h : (followers (k + 1) lo hi t).length = k + 1) :
    ∃ b rest, t = b :: rest ∧ (lo.toNat ≤ b.toNat ∧ b.toNat ≤ hi.toNat) ∧
      followers (k + 1) lo hi t = b :: followers k 0x80 0xBF rest ∧
      (followers k 0x80 0xBF rest).length = k := by
  cases t with
  | nil => cases h
  | cons b rest =>
    rw [followers_cons] at h
    split at h
    · rename_i hb
      exact ⟨b, rest, rfl, hb, by rw [followers_cons, if_pos hb], Nat.succ.inj h⟩
    · cases h

/-- What is read as a character are the bytes of one. -/
theorem encodes_of_nextChar? {t rest : Text} {c : Char} (h : nextChar? t = some (c, rest)) :
    ∃ n bytes, c = Char.ofNat n ∧ t = bytes ++ rest ∧ Encodes n bytes := by
  cases t with
  | nil => cases h
  | cons a t =>
    rw [nextChar?] at h
    split at h
    · rename_i hsmall
      obtain ⟨rfl, rfl⟩ := Prod.mk.inj (Option.some.inj h)
      have ha : a.toNat < 0x80 := UInt8.lt_iff_toNat_lt.1 hsmall
      exact ⟨a.toNat, [a], rfl, rfl, .one (by omega) rfl⟩
    · split at h
      · cases h
      · rename_i k lo hi hseq
        dsimp only at h
        split at h
        · rename_i hlength
          obtain ⟨rfl, rfl⟩ := Prod.mk.inj (Option.some.inj h)
          obtain ⟨hlo, hhi, ⟨rfl, ha⟩ | ⟨rfl, ha, hlong, hsurrogate⟩ | ⟨rfl, ha, hlong, hlast⟩⟩ :=
            sequence?_cases hseq
          · obtain ⟨b, t, rfl, hb, hmore, _⟩ := exists_of_followers hlength
            rw [hmore, codePoint_eq, if_pos (by omega)]
            exact ⟨_, [a, b], rfl, rfl, .two ha ⟨by omega, by omega⟩ rfl⟩
          · obtain ⟨b, t, rfl, hb, hmore, hlength⟩ := exists_of_followers hlength
            obtain ⟨c, t, rfl, hc, hmore', _⟩ := exists_of_followers hlength
            rw [hmore, hmore', codePoint_eq, if_neg (by omega), if_pos (by omega)]
            exact ⟨_, [a, b, c], rfl, rfl, .three ha ⟨by omega, by omega⟩ hc (by omega) (by omega) rfl⟩
          · obtain ⟨b, t, rfl, hb, hmore, hlength⟩ := exists_of_followers hlength
            obtain ⟨c, t, rfl, hc, hmore', hlength⟩ := exists_of_followers hlength
            obtain ⟨d, t, rfl, hd, hmore'', _⟩ := exists_of_followers hlength
            rw [hmore, hmore', hmore'', codePoint_eq, if_neg (by omega), if_neg (by omega)]
            exact ⟨_, [a, b, c, d], rfl, rfl,
              .four ha ⟨by omega, by omega⟩ hc hd (by omega) (by omega) rfl⟩
        · cases h

/-! ## Well-formed texts -/

/-- The text is the UTF-8 form of characters. -/
def WellFormed (t : Text) : Prop := ∃ cs : List Char, t = ofChars cs

theorem WellFormed.nil : WellFormed [] := ⟨[], rfl⟩

theorem WellFormed.append {t u : Text} (ht : WellFormed t) (hu : WellFormed u) :
    WellFormed (t ++ u) := by
  obtain ⟨cs, rfl⟩ := ht
  obtain ⟨ds, rfl⟩ := hu
  exact ⟨cs ++ ds, List.flatMap_append.symm⟩

theorem wellFormed_ofChar (c : Char) : WellFormed (ofChar c) :=
  ⟨[c], (List.append_nil _).symm⟩

theorem nextChar?_ofChar (c : Char) (rest : Text) :
    nextChar? (ofChar c ++ rest) = some (c, rest) := by
  rw [nextChar?_of_encodes (encodes_ofChar c), Char.ofNat_toNat]

/-- What is read as a character is its UTF-8 form. -/
theorem eq_append_of_nextChar? {t rest : Text} {c : Char} (h : nextChar? t = some (c, rest)) :
    t = ofChar c ++ rest := by
  obtain ⟨n, bytes, rfl, rfl, hbytes⟩ := encodes_of_nextChar? h
  rw [hbytes.ofChar_eq]

theorem ofChar_ne_nil (c : Char) : ofChar c ≠ [] := by
  have h := encodes_ofChar c
  generalize ofChar c = t at h
  cases h <;> exact List.cons_ne_nil _ _

/-- **Replacing what is invalid leaves a well-formed text alone.** -/
theorem WellFormed.replaceInvalid_eq {t : Text} (h : WellFormed t) : replaceInvalid t = t := by
  obtain ⟨cs, rfl⟩ := h
  induction cs with
  | nil => simp [ofChars, replaceInvalid]
  | cons c cs ih =>
    have hcons : ofChars (c :: cs) = ofChar c ++ ofChars cs := rfl
    have hread := nextChar?_ofChar c (ofChars cs)
    obtain ⟨b, bytes, hbytes⟩ := List.exists_cons_of_ne_nil (ofChar_ne_nil c)
    have hlength : (ofChars cs).length ≤ (bytes ++ ofChars cs).length := by
      rw [List.length_append]
      omega
    rw [hcons]
    rw [hbytes, List.cons_append] at hread ⊢
    rw [replaceInvalid, hread]
    dsimp only
    rw [if_pos hlength, ih, hbytes, List.cons_append]

/-- Replacing what is invalid makes a text well-formed. -/
theorem wellFormed_replaceInvalid (t : Text) : WellFormed (replaceInvalid t) := by
  fun_induction replaceInvalid t with
  | case1 => exact .nil
  | case2 b rest c more h hle ih => exact (wellFormed_ofChar c).append ih
  | case3 => exact .nil
  | case4 b rest h hseq ih => exact (wellFormed_ofChar _).append ih
  | case5 b rest h n lo hi hseq ih => exact (wellFormed_ofChar _).append ih

/-- An ASCII byte in a character is all of it. -/
theorem ofChar_of_ascii {c : Char} {b : UInt8} (hb : b ∈ ofChar c) (hascii : b.toNat < 0x80) :
    ofChar c = [b] := by
  have h := encodes_ofChar c
  generalize ofChar c = t at h hb
  cases h with
  | one ha hn => rw [List.mem_singleton.1 hb]
  | two ha hx hn =>
    unfold Tail at hx
    simp only [List.mem_cons, List.not_mem_nil, or_false] at hb
    rcases hb with rfl | rfl <;> omega
  | three ha hx hy hlong hsurrogate hn =>
    unfold Tail at hx hy
    simp only [List.mem_cons, List.not_mem_nil, or_false] at hb
    rcases hb with rfl | rfl | rfl <;> omega
  | four ha hx hy hz hlong hlast hn =>
    unfold Tail at hx hy hz
    simp only [List.mem_cons, List.not_mem_nil, or_false] at hb
    rcases hb with rfl | rfl | rfl | rfl <;> omega

theorem wellFormed_singleton {b : UInt8} (hascii : b.toNat < 0x80) : WellFormed [b] := by
  have h : Encodes b.toNat [b] := .one (by omega) rfl
  rw [← h.ofChar_eq]
  exact wellFormed_ofChar _

/-- **A well-formed text can be cut at an ASCII byte.** -/
theorem WellFormed.cut {t u : Text} {b : UInt8} (h : WellFormed (t ++ b :: u))
    (hascii : b.toNat < 0x80) : WellFormed t ∧ WellFormed u := by
  obtain ⟨cs, hcs⟩ := h
  induction cs generalizing t with
  | nil => cases t <;> cases hcs
  | cons c cs ih =>
    have hcons : t ++ b :: u = ofChar c ++ ofChars cs := hcs
    rcases List.append_eq_append_iff.1 hcons with ⟨t', hc, hrest⟩ | ⟨t', ht, hrest⟩
    · cases t' with
      | nil =>
        rw [List.append_nil] at hc
        obtain ⟨_, hu⟩ := @ih [] hrest
        exact ⟨hc ▸ wellFormed_ofChar c, hu⟩
      | cons b' t' =>
        obtain ⟨rfl, hu⟩ := List.cons.inj hrest
        -- the byte is a character of its own, so nothing of the text stands before it
        have hone := ofChar_of_ascii (c := c) (by rw [hc]; simp) hascii
        have hlength := congrArg List.length (hc.symm.trans hone)
        simp only [List.length_append, List.length_cons, List.length_nil] at hlength
        obtain rfl := List.length_eq_zero_iff.1 (show t.length = 0 by omega)
        obtain rfl := List.length_eq_zero_iff.1 (show t'.length = 0 by omega)
        exact ⟨.nil, cs, hu⟩
    · obtain ⟨ht', hu⟩ := ih hrest.symm
      rw [ht]
      exact ⟨(wellFormed_ofChar c).append ht', hu⟩

end Text
end LiquidLint
