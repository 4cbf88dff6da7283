import LiquidLint.Proofs.WordReading

/-!
# The names that are found in an expression

The expressions of the template language are syntax trees (`Expr`), with how they are written and which
variables they read.  A variable is read where a path starts; what stands behind a dot is a property, and the
names of filters and of their arguments are no variables either (`Expr.roots`).  The trees hold only what can
be written: a name is made of the bytes that names are made of, a variable is no keyword, and a quoted text
does not hold its own quote.

The names found in the text of an expression are the variables that it reads, in order, but for those that
the upper bound of a range starts with (`identifiers_text`).  The reader looks back at one byte: a dot
makes what follows a property, and of the two dots of a range the second one stands in front of the upper
bound.  Behind a number it is the reader of numbers that takes the dots, and what follows them, along.

Both are looked at for each kind of expression by itself (`Scans`).  What an expression is followed by
matters in as much as a name or a number might go on there (`Follow`).
-/

namespace LiquidLint
namespace Liquid

/-! ## Words -/

/-- A name that is no keyword. -/
structure Variable extends Name where
  free : keywords.contains toName.text = false

/-- A number: digits, with a sign and a fraction or without. -/
structure Number where
  negative : Bool
  whole : Text
  fraction : Text
  whole_ne : whole ≠ []
  digits : ∀ b ∈ whole ++ fraction, Text.isDigit b = true

namespace Number

/-- The sign of a number; it is written in front of negative numbers only. -/
def sign (n : Number) : Text := if n.negative then ['-'] else []

/-- The point of a number; without a fraction there is none. -/
def point (n : Number) : Text := if n.fraction.isEmpty then [] else ['.']

/-- A number as it is written. -/
def text (n : Number) : Text := n.sign ++ (n.whole ++ (n.point ++ n.fraction))

end Number

/-- The words that stand for values. -/
inductive Constant where
  | true
  | false
  | nil

/-- The bytes of a word. -/
def Constant.text : Constant → Text
  | .true => "true"
  | .false => "false"
  | .nil => "nil"

/-- What compares or combines two values. -/
inductive Operator where
  | equal
  | notEqual
  | different
  | less
  | greater
  | atMost
  | atLeast
  | contains
  | and
  | or

/-- An operator as it is written. -/
def Operator.text : Operator → Text
  | .equal => "=="
  | .notEqual => "!="
  | .different => "<>"
  | .less => "<"
  | .greater => ">"
  | .atMost => "<="
  | .atLeast => ">="
  | .contains => "contains"
  | .and => "and"
  | .or => "or"

/-! ## Trees -/

mutual

/-- An expression. -/
inductive Expr where
  | number (n : Number)
  | quoted (q : Quoted)
  | constant (c : Constant)
  /-- A variable, and how to get from it to a value. -/
  | path (root : Variable) (accessors : Accessors)
  /-- The numbers from `first` to `last`. -/
  | range (first last : Expr)
  | binary (op : Operator) (left right : Expr)
  | filtered (input : Expr) (filter : Name) (args : Args)

/-- The steps of a path, from left to right. -/
inductive Accessors where
  | none
  | property (name : Name) (rest : Accessors)
  | index (key : Expr) (rest : Accessors)

/-- The arguments of a filter, from left to right. -/
inductive Args where
  | none
  | positional (value : Expr) (rest : Args)
  | named (key : Name) (value : Expr) (rest : Args)

end

mutual

/-- An expression as it is written, with single spaces around operators and pipes. -/
def Expr.text : Expr → Text
  | .number n => n.text
  | .quoted q => q.text
  | .constant c => c.text
  | .path root accessors => root.text ++ accessors.text
  | .range first last => "(" ++ (first.text ++ (".." ++ (last.text ++ ")")))
  | .binary op left right => left.text ++ (" " ++ (op.text ++ (" " ++ right.text)))
  | .filtered input filter args => input.text ++ (" | " ++ (filter.text ++ args.text ": "))

/-- The steps of a path as they are written. -/
def Accessors.text : Accessors → Text
  | .none => []
  | .property name rest => "." ++ (name.text ++ rest.text)
  | .index key rest => "[" ++ (key.text ++ ("]" ++ rest.text))

/-- The arguments of a filter as they are written, the first one behind `lead`. -/
def Args.text : Args → (lead : Text) → Text
  | .none, _ => []
  | .positional value rest, lead => lead ++ (value.text ++ rest.text ", ")
  | .named key value rest, lead => lead ++ (key.text ++ (": " ++ (value.text ++ rest.text ", ")))

end

/-! ## Variables -/

/-- A place where an expression reads a variable. -/
structure Root where
  name : Text
  /-- The upper bound of a range starts with the variable. -/
  bound : Bool
deriving DecidableEq

mutual

/-- The variables that an expression reads, from left to right.  `bound` says whether the expression is
the upper bound of a range, or what such a bound starts with. -/
def Expr.rootsIn : Expr → (bound : Bool) → List Root
  | .number _, _ => []
  | .quoted _, _ => []
  | .constant _, _ => []
  | .path root accessors, bound => ⟨root.text, bound⟩ :: accessors.roots
  | .range first last, _ => first.rootsIn false ++ last.rootsIn true
  | .binary _ left right, bound => left.rootsIn bound ++ right.rootsIn false
  | .filtered input _ args, bound => input.rootsIn bound ++ args.roots

/-- The variables that the steps of a path read. -/
def Accessors.roots : Accessors → List Root
  | .none => []
  | .property _ rest => rest.roots
  | .index key rest => key.rootsIn false ++ rest.roots

/-- The variables that the arguments of a filter read. -/
def Args.roots : Args → List Root
  | .none => []
  | .positional value rest => value.rootsIn false ++ rest.roots
  | .named _ value rest => value.rootsIn false ++ rest.roots

end

/-- The variables that an expression reads, from left to right. -/
def Expr.roots (e : Expr) : List Root := e.rootsIn false

/-! ## Names without their offsets -/

/-- The names that are found in `t`. -/
def namesFrom (before : Before) (t : Text) : List Text := (identsFrom before 0 t).map Ident.name

/-- Offsets do not decide what is found. -/
theorem map_name_identsFrom (before : Before) (offset offset' : Nat) (t : Text) :
    (identsFrom before offset t).map Ident.name = (identsFrom before offset' t).map Ident.name := by
  fun_induction identsFrom before offset t generalizing offset' with
  | case1 => rw [identsFrom]
  | case2 before offset b rest hquote literal hclosed ih =>
    rw [identsFrom, if_pos hquote, if_pos hclosed]
    exact ih _
  | case3 before offset b rest hquote literal hopen =>
    rw [identsFrom, if_pos hquote, if_neg hopen]
  | case4 before offset b rest hquote hstart name more found ih =>
    rw [identsFrom, if_neg hquote, if_pos hstart]
    simp only [List.map_append]
    congr 1
    · simp only [found]
      split <;> rfl
    · exact ih _
  | case5 before offset b rest hquote hstart hblank ih =>
    rw [identsFrom, if_neg hquote, if_neg hstart, if_pos hblank]
    exact ih _
  | case6 before offset b rest hquote hstart hblank hdigit number ih =>
    rw [identsFrom, if_neg hquote, if_neg hstart, if_neg hblank, if_pos hdigit]
    exact ih _
  | case7 before offset b rest hquote hstart hblank hdigit ih =>
    rw [identsFrom, if_neg hquote, if_neg hstart, if_neg hblank, if_neg hdigit]
    exact ih _

theorem map_name_eq (before : Before) (offset : Nat) (t : Text) :
    (identsFrom before offset t).map Ident.name = namesFrom before t :=
  map_name_identsFrom before offset 0 t

/-! ## One word -/

theorem namesFrom_nil (before : Before) : namesFrom before [] = [] := by
  rw [namesFrom, identsFrom]
  rfl

theorem namesFrom_quoted (q : Quoted) (before : Before) (rest : Text) :
    namesFrom before (q.text ++ rest) = namesFrom .other rest := by
  rw [namesFrom, identsFrom_quoted, map_name_eq]

theorem namesFrom_name (n : Name) (before : Before) {more : Text}
    (hmore : ∀ b ∈ more.head?, isIdentPart b = false) :
    namesFrom before (n.text ++ more) =
      (if before = .other && !keywords.contains n.text && !beforeColon more then [n.text] else []) ++
        namesFrom .other more := by
  rw [namesFrom, identsFrom_name before 0 n hmore, List.map_append, map_name_eq]
  congr 1
  split <;> rfl

/-- A keyword is passed over. -/
theorem namesFrom_keyword {w : Text} (hw : isWord w = true) (hkey : keywords.contains w = true)
    (before : Before) {more : Text} (hmore : ∀ b ∈ more.head?, isIdentPart b = false) :
    namesFrom before (w ++ more) = namesFrom .other more := by
  cases w with
  | nil => cases hw
  | cons b rest =>
    obtain ⟨hstart, hrest⟩ := Bool.and_eq_true_iff.1 hw
    have hname := namesFrom_name ⟨b, rest, hstart, List.all_eq_true.1 hrest⟩ before hmore
    simp only [Name.text, hkey, Bool.not_true, Bool.and_false, Bool.false_and] at hname
    exact hname

theorem namesFrom_space (before : Before) (t : Text) :
    namesFrom before (' ' :: t) = namesFrom before t := by
  rw [namesFrom, identsFrom_blank _ _ (by decide), map_name_eq]

theorem namesFrom_mark {b : UInt8} (hb : isMark b = true) (before : Before) (t : Text) :
    namesFrom before (b :: t) = namesFrom (if b = '.' || b = '|' then .joint else .other) t := by
  rw [namesFrom, identsFrom_mark _ _ hb, map_name_eq]

/-- Marks other than dots and pipes are passed over. -/
theorem namesFrom_marks {marks : Text}
    (hmarks : ∀ b ∈ marks, isMark b = true ∧ (b = '.' || b = '|') = false) (t : Text) :
    namesFrom .other (marks ++ t) = namesFrom .other t := by
  induction marks with
  | nil => rfl
  | cons b marks ih =>
    obtain ⟨hmark, hjoint⟩ := hmarks b (List.mem_cons_self ..)
    rw [List.cons_append, namesFrom_mark hmark, hjoint]
    exact ih fun c hc => hmarks c (List.mem_cons_of_mem _ hc)

/-- An operator is passed over, whether it is a word or made of marks. -/
theorem namesFrom_operator (op : Operator) (t : Text) :
    namesFrom .other (op.text ++ (" " ++ t)) = namesFrom .other t := by
  have hword {w : Text} (hw : isWord w = true) (hkey : keywords.contains w = true) :
      namesFrom .other (w ++ (" " ++ t)) = namesFrom .other t := by
    refine (namesFrom_keyword hw hkey _ fun b hb => ?_).trans (namesFrom_space _ _)
    obtain rfl := Option.some.inj hb
    decide
  have hmarks {marks : Text}
      (hmarks : ∀ b ∈ marks, isMark b = true ∧ (b = '.' || b = '|') = false) :
      namesFrom .other (marks ++ (" " ++ t)) = namesFrom .other t :=
    (namesFrom_marks hmarks _).trans (namesFrom_space _ _)
  cases op with
  | contains | and | or => exact hword (by decide) (by decide)
  | equal | notEqual | different | less | greater | atMost | atLeast =>
    exact hmarks (by decide +kernel)

theorem namesFrom_digit {b : UInt8} (hb : Text.isDigit b = true) (before : Before) (t : Text) :
    namesFrom before (b :: t) = namesFrom .other (t.dropWhile isNumberPart) := by
  rw [namesFrom, identsFrom_digit _ _ hb, map_name_eq]

theorem isNumberPart_of_number (n : Number) : ∀ b ∈ n.text, isNumberPart b = true := by
  have hdigits : ∀ b ∈ n.whole ++ n.fraction, isNumberPart b = true := fun b hb => by
    simp [isNumberPart, isIdentPart, n.digits b hb]
  have hsign : ∀ b ∈ n.sign, isNumberPart b = true := by
    unfold Number.sign
    cases n.negative <;> decide +kernel
  have hpoint : ∀ b ∈ n.point, isNumberPart b = true := by
    unfold Number.point
    cases n.fraction.isEmpty <;> decide +kernel
  intro b hb
  simp only [Number.text, List.mem_append] at hb
  rcases hb with hb | hb | hb | hb
  · exact hsign b hb
  · exact hdigits b (List.mem_append_left _ hb)
  · exact hpoint b hb
  · exact hdigits b (List.mem_append_right _ hb)

/-! ## What follows an expression -/

/-- `rest` can follow an expression, and the names that are found in it are `ns`: no name or number goes
on there, and no colon makes a key of a name. -/
structure Follow (rest : Text) (ns : List Text) : Prop where
  names : namesFrom .other rest = ns
  /-- A number in front of `rest` goes on with dots and with what they are followed by. -/
  tail : namesFrom .other (rest.dropWhile isNumberPart) = ns
  head : ∀ b ∈ rest.head?, isIdentPart b = false
  colon : beforeColon rest = false

namespace Follow

variable {rest : Text} {ns : List Text}

theorem nil : Follow [] [] := ⟨namesFrom_nil _, namesFrom_nil _, nofun, rfl⟩

theorem of_head {b : UInt8} (h : namesFrom .other (b :: rest) = ns) (hpart : isNumberPart b = false)
    (hcolon : beforeColon (b :: rest) = false) : Follow (b :: rest) ns where
  names := h
  tail := by rwa [List.dropWhile_cons_of_neg (Bool.eq_false_iff.1 hpart)]
  head c hc := by
    obtain rfl : b = c := Option.some.inj hc
    exact (Bool.or_eq_false_iff.1 hpart).1
  colon := hcolon

theorem space (h : namesFrom .other rest = ns) (hcolon : beforeColon rest = false) :
    Follow (" " ++ rest) ns :=
  of_head ((namesFrom_space _ _).trans h) (by decide) hcolon

theorem closing (h : namesFrom .other rest = ns) : Follow (")" ++ rest) ns ∧ Follow ("]" ++ rest) ns :=
  ⟨of_head ((namesFrom_mark (by decide) _ _).trans h) (by decide) rfl,
    of_head ((namesFrom_mark (by decide) _ _).trans h) (by decide) rfl⟩

/-- A bracket opens the key of a path. -/
theorem bracket (h : namesFrom .other rest = ns) : Follow ("[" ++ rest) ns :=
  of_head ((namesFrom_mark (by decide) _ _).trans h) (by decide) rfl

/-- A comma separates arguments. -/
theorem comma (h : namesFrom .other rest = ns) : Follow (", " ++ rest) ns :=
  of_head ((namesFrom_mark (by decide) _ _).trans ((namesFrom_space _ _).trans h)) (by decide) rfl

/-- The dots of a range: what comes next is read like a property, or as the rest of a number. -/
theorem dots (hjoint : namesFrom .joint rest = ns)
    (htail : namesFrom .other (rest.dropWhile isNumberPart) = ns) : Follow (".." ++ rest) ns where
  names := (namesFrom_mark (by decide) _ _).trans ((namesFrom_mark (by decide) _ _).trans hjoint)
  tail := htail
  head b hb := by
    obtain rfl := Option.some.inj hb
    decide
  colon := rfl

/-- A property is no variable. -/
theorem property (n : Name) (h : Follow rest ns) : Follow ("." ++ (n.text ++ rest)) ns where
  names := by
    refine (namesFrom_mark (by decide) _ _).trans ((namesFrom_name n _ h.head).trans ?_)
    rw [h.names]
    rfl
  tail := by
    have hparts : ∀ b ∈ "." ++ n.text, isNumberPart b = true := by
      intro b hb
      rcases List.mem_cons.1 hb with rfl | hb
      · rfl
      · exact isNumberPart_of_name n b hb
    rw [← List.append_assoc, List.dropWhile_append_of_pos hparts]
    exact h.tail
  head b hb := by
    obtain rfl := Option.some.inj hb
    decide
  colon := rfl

end Follow

/-! ## Expressions -/

/-- The variables that are found: all but those that an upper bound starts with. -/
def found (roots : List Root) : List Text := (roots.filter fun r => !r.bound).map Root.name

@[simp] theorem found_nil : found [] = [] := rfl

@[simp] theorem found_append (rs ss : List Root) : found (rs ++ ss) = found rs ++ found ss := by
  simp [found]

@[simp] theorem found_cons (name : Text) (bound : Bool) (rs : List Root) :
    found (⟨name, bound⟩ :: rs) = (if bound then [] else [name]) ++ found rs := by
  cases bound <;> rfl

/-- How a text that reads the variables `roots` is gone through: from its start, behind a dot or not,
and from where a number in front of it ends.  What it starts with is lost behind a dot and behind a
number. -/
structure Scans (t : Text) (roots : (bound : Bool) → List Root) : Prop where
  names : ∀ {rest ns}, Follow rest ns → ∀ before,
    namesFrom before (t ++ rest) = found (roots (before = .joint)) ++ ns
  tail : ∀ {rest ns}, Follow rest ns →
    namesFrom .other ((t ++ rest).dropWhile isNumberPart) = found (roots true) ++ ns

namespace Scans

theorem number (n : Number) : Scans n.text fun _ => [] := by
  obtain ⟨d, ds, hwhole⟩ := List.exists_cons_of_ne_nil n.whole_ne
  have hdigit : Text.isDigit d = true := n.digits d (by simp [hwhole])
  have htext : n.text = n.sign ++ (d :: (ds ++ (n.point ++ n.fraction))) := by
    rw [Number.text, hwhole]
    rfl
  have hparts := isNumberPart_of_number n
  rw [Number.text, hwhole] at hparts
  constructor
  · intro rest ns h before
    have hnumber (before : Before) :
        namesFrom before (d :: (ds ++ (n.point ++ n.fraction)) ++ rest) = ns := by
      rw [List.cons_append, namesFrom_digit hdigit, List.dropWhile_append_of_pos]
      · exact h.tail
      · exact fun b hb => hparts b (List.mem_append_right _ (List.mem_cons_of_mem _ hb))
    rw [htext, Number.sign]
    cases n.negative with
    | false => exact hnumber before
    | true => exact (namesFrom_mark (by decide) _ _).trans (hnumber _)
  · intro rest ns h
    rw [List.dropWhile_append_of_pos (isNumberPart_of_number n)]
    exact h.tail

theorem quoted (q : Quoted) : Scans q.text fun _ => [] where
  names h before := (namesFrom_quoted q before _).trans h.names
  tail := by
    intro rest ns h
    have hquote : isNumberPart q.quote = false := by
      rcases q.isQuote with hq | hq <;>
        · rw [hq]
          decide
    rw [Quoted.text, List.cons_append, List.dropWhile_cons_of_neg (Bool.eq_false_iff.1 hquote)]
    exact (namesFrom_quoted q _ _).trans h.names

theorem constant (c : Constant) : Scans c.text fun _ => [] where
  names h before := by
    refine (namesFrom_keyword ?_ ?_ before h.head).trans h.names <;> cases c <;> decide
  tail := by
    intro rest ns h
    rw [List.dropWhile_append_of_pos]
    · exact h.tail
    · cases c <;> decide +kernel

/-- A path starts with its variable. -/
theorem path (root : Variable) {steps : Text} {roots : List Root}
    (hsteps : ∀ {rest ns}, Follow rest ns → Follow (steps ++ rest) (found roots ++ ns)) :
    Scans (root.text ++ steps) fun bound => ⟨root.text, bound⟩ :: roots where
  names h before := by
    have hrest := hsteps h
    rw [List.append_assoc, namesFrom_name root.toName before hrest.head, root.free, hrest.colon,
      hrest.names]
    cases before <;> simp
  tail := by
    intro rest ns h
    rw [List.append_assoc, List.dropWhile_append_of_pos (isNumberPart_of_name root.toName),
      (hsteps h).tail]
    simp

/-- The upper bound of a range follows two dots. -/
theorem range {first last : Text} {roots roots' : Bool → List Root} (hfirst : Scans first roots)
    (hlast : Scans last roots') :
    Scans ("(" ++ (first ++ (".." ++ (last ++ ")")))) fun _ => roots false ++ roots' true := by
  have hnames {rest : Text} {ns : List Text} (h : Follow rest ns) (before : Before) :
      namesFrom before ("(" ++ (first ++ (".." ++ (last ++ ")"))) ++ rest) =
        found (roots false ++ roots' true) ++ ns := by
    have hclose := (Follow.closing h.names).1
    have hupper := Follow.dots (hlast.names hclose .joint) (hlast.tail hclose)
    show namesFrom before ('(' :: ((first ++ (".." ++ (last ++ ")"))) ++ rest)) = _
    rw [namesFrom_mark (by decide)]
    simp only [List.append_assoc]
    refine (hfirst.names hupper .other).trans ?_
    simp
  exact ⟨hnames, fun h => hnames h .other⟩

theorem binary (op : Operator) {left right : Text} {roots roots' : Bool → List Root}
    (hleft : Scans left roots) (hright : Scans right roots') :
    Scans (left ++ (" " ++ (op.text ++ (" " ++ right)))) fun bound => roots bound ++ roots' false := by
  have hop {rest : Text} {ns : List Text} (h : Follow rest ns) :
      Follow (" " ++ (op.text ++ (" " ++ (right ++ rest)))) (found (roots' false) ++ ns) := by
    exact .space ((namesFrom_operator op _).trans (hright.names h .other)) (by cases op <;> rfl)
  constructor
  · intro rest ns h before
    simp only [List.append_assoc]
    rw [hleft.names (hop h) before]
    simp
  · intro rest ns h
    simp only [List.append_assoc]
    rw [hleft.tail (hop h)]
    simp

/-- The arguments of a filter are given behind a colon. -/
theorem filtered {input args : Text} {roots : Bool → List Root} {roots' : List Root} (filter : Name)
    (hinput : Scans input roots)
    (hargs : ∀ {rest ns}, Follow rest ns →
      namesFrom .other (args ++ rest) = found roots' ++ ns ∧
        ∀ b ∈ (args ++ rest).head?, isIdentPart b = false) :
    Scans (input ++ (" | " ++ (filter.text ++ args))) fun bound => roots bound ++ roots' := by
  have hfilter {rest : Text} {ns : List Text} (h : Follow rest ns) :
      Follow (" | " ++ (filter.text ++ (args ++ rest))) (found roots' ++ ns) := by
    obtain ⟨hnames, hhead⟩ := hargs h
    -- behind the pipe the name of the filter is no variable
    have hpipe : namesFrom .joint (filter.text ++ (args ++ rest)) = found roots' ++ ns := by
      rw [namesFrom_name filter _ hhead, hnames]
      rfl
    have hbar : namesFrom .other ("| " ++ (filter.text ++ (args ++ rest))) = found roots' ++ ns :=
      (namesFrom_mark (by decide) _ _).trans ((namesFrom_space _ _).trans hpipe)
    exact Follow.space hbar rfl
  constructor
  · intro rest ns h before
    simp only [List.append_assoc]
    rw [hinput.names (hfilter h) before]
    simp
  · intro rest ns h
    simp only [List.append_assoc]
    rw [hinput.tail (hfilter h)]
    simp

end Scans

/-- The arguments that start with `lead`: one that reads nothing, and what the others are read as. -/
structure ScansArgs (t : Text → Text) (roots : List Root) : Prop where
  first : ∀ {rest ns}, Follow rest ns →
    namesFrom .other (t ": " ++ rest) = found roots ++ ns ∧
      ∀ b ∈ (t ": " ++ rest).head?, isIdentPart b = false
  later : ∀ {rest ns}, Follow rest ns → Follow (t ", " ++ rest) (found roots ++ ns)

theorem scansArgs_of_value {value more : Text} {roots : List Root}
    (h : ∀ {rest ns}, Follow rest ns →
      namesFrom .other (value ++ (more ++ rest)) = found roots ++ ns) :
    ScansArgs (fun lead => lead ++ (value ++ more)) roots where
  first := by
    intro rest ns hrest
    constructor
    · simp only [List.append_assoc]
      exact (namesFrom_mark (by decide) _ _).trans ((namesFrom_space _ _).trans (h hrest))
    · intro b hb
      obtain rfl := Option.some.inj hb
      decide
  later := by
    intro rest ns hrest
    simp only [List.append_assoc]
    exact .comma (h hrest)

mutual

/-- **An expression reads its variables**, those apart that an upper bound starts with. -/
theorem Expr.scans : (e : Expr) → Scans e.text e.rootsIn
  | .number n => .number n
  | .quoted q => .quoted q
  | .constant c => .constant c
  | .path root accessors => .path root fun h => accessors.follow h
  | .range first last => .range first.scans last.scans
  | .binary op left right => .binary op left.scans right.scans
  | .filtered input filter args => .filtered filter input.scans fun h => args.scans.first h

/-- The steps of a path read the variables in their keys. -/
theorem Accessors.follow : (a : Accessors) → {rest : Text} → {ns : List Text} → Follow rest ns →
    Follow (a.text ++ rest) (found a.roots ++ ns)
  | .none, _, _, h => h
  | .property name more, _, _, h => by
    have hmore := more.follow h
    rw [Accessors.text, Accessors.roots]
    simp only [List.append_assoc]
    exact .property name hmore
  | .index key more, _, _, h => by
    have hmore := more.follow h
    have hkey := key.scans.names (Follow.closing hmore.names).2 .other
    rw [Accessors.text, Accessors.roots]
    simp only [List.append_assoc]
    refine .bracket (hkey.trans ?_)
    simp

/-- The arguments of a filter read the variables of their values. -/
theorem Args.scans : (args : Args) → ScansArgs args.text args.roots
  | .none => ⟨fun h => ⟨h.names, h.head⟩, fun h => h⟩
  | .positional value more =>
    scansArgs_of_value fun h => by
      rw [value.scans.names (more.scans.later h) .other, Args.roots]
      simp
  | .named key value more =>
    scansArgs_of_value fun {rest ns} h => by
      have hvalue := value.scans.names (more.scans.later h) .other
      have hcolon : namesFrom .other (": " ++ (value.text ++ (more.text ", " ++ rest))) =
          found (Args.named key value more).roots ++ ns := by
        refine (namesFrom_mark (by decide) _ _).trans ((namesFrom_space _ _).trans (hvalue.trans ?_))
        simp [Args.roots]
      -- the colon makes a key of the name
      simp only [List.append_assoc]
      have hkey : beforeColon (": " ++ (value.text ++ (more.text ", " ++ rest))) = true := rfl
      rw [namesFrom_name key .other, hcolon, hkey, Bool.not_true, Bool.and_false]
      · rfl
      · intro b hb
        obtain rfl := Option.some.inj hb
        decide

end

/-- **The names that are found in an expression are the variables that it reads**, from left to right, but
for those that the upper bound of a range starts with.  So all of them are found exactly if no upper bound
starts with a variable. -/
theorem identifiers_text (e : Expr) :
    (identifiers e.text).map Ident.name = (e.roots.filter fun r => !r.bound).map Root.name ∧
    ((identifiers e.text).map Ident.name = e.roots.map Root.name ↔
      ∀ r ∈ e.roots, r.bound = false) := by
  have hnames : (identifiers e.text).map Ident.name = found e.roots := by
    have h := e.scans.names Follow.nil .other
    rw [List.append_nil, List.append_nil] at h
    exact h
  refine ⟨hnames, fun hall => ?_, fun hall => ?_⟩
  · have hlength := congrArg List.length (hnames.symm.trans hall)
    rw [found, List.length_map, List.length_map, List.length_filter_eq_length_iff] at hlength
    exact fun r hr => by simpa using hlength r hr
  · rw [hnames, found, List.filter_eq_self.2 fun r hr => by rw [hall r hr]; rfl]

/-- The upper bound of a range is lost. -/
theorem identifiers_range :
    ¬ ∀ e : Expr, (identifiers e.text).map Ident.name = e.roots.map Root.name := by
  intro hall
  have hlost := hall (.range
    (.path ⟨⟨'a', [], by decide, nofun⟩, by decide⟩ .none)
    (.path ⟨⟨'b', [], by decide, nofun⟩, by decide⟩ .none))
  exact absurd hlost (by decide +kernel)

end Liquid
end LiquidLint
