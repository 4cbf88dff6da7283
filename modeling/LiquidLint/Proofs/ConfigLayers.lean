import Mathlib.Data.List.Induction
import LiquidLint.Config.Layer
import LiquidLint.Proofs.OrderedTables

/-!
# What layers come to

Each field of a configuration has one of two rules.  Where a value can be told to be unset, a layer that sets
it decides, and of several layers the last one that does (`lastSet`): the words, the number of jobs, the
lists, and in the section of each check every field by itself.  A truth value that is not set is false, so
that several layers come to their disjunction.  `Composes` says this field by field, and it is what putting
layers above each other gives, however many there are (`composes_foldl`).

Both rules are associative and have the value that is unset as identity, so the layers may be put together in
any grouping (`overlay_assoc`), and one that sets nothing makes no difference (`empty_overlay`,
`overlay_empty`).

Layers are put together while others still hold them: the standard configuration, the one of a file, the one
of the command line.  So they are looked at in a memory, too, each with the settings of its checks in a table
elsewhere, where they are put together by single writes.  Where only one of two layers is there, it is itself
the result.  Otherwise every write goes to a record and a table that were laid out for the result
(`Memory.merge_some`), so that whatever could be read before reads the same afterwards, and the result reads
as what the layers come to (`Memory.merged_mergeAll`).
-/

namespace LiquidLint

/-! ## The rules of single fields -/

namespace Layer

/-- What a text sets; an empty one sets nothing. -/
def setText (t : Text) : Option Text := if t.isEmpty then none else some t

/-- What a number sets; zero sets nothing. -/
def setNumber (n : Int) : Option Int := if n = 0 then none else some n

theorem getD_setText (t : Text) : (setText t).getD [] = t := by
  cases t with
  | nil => rfl
  | cons b rest => rfl

theorem getD_setNumber (n : Int) : (setNumber n).getD 0 = n := by
  by_cases h : n = 0
  · simp [setNumber, h]
  · simp [setNumber, h]

theorem setText_text (lower upper : Text) :
    setText (text lower upper) = (setText upper).or (setText lower) := by
  cases upper with
  | nil => rfl
  | cons b rest => rfl

theorem setNumber_number (lower upper : Int) :
    setNumber (number lower upper) = (setNumber upper).or (setNumber lower) := by
  by_cases h : upper = 0
  · simp [setNumber, number, h]
  · simp [setNumber, number, h]

theorem text_assoc (a b c : Text) : text (text a b) c = text a (text b c) := by
  cases c with
  | nil => rfl
  | cons x rest => rfl

theorem number_assoc (a b c : Int) : number (number a b) c = number a (number b c) := by
  by_cases h : c = 0
  · simp [number, h]
  · simp [number, h]

theorem option_assoc {α : Type} (a b c : Option α) : option (option a b) c = option a (option b c) :=
  Option.or_assoc.symm

end Layer

/-! ## The sections of checks -/

namespace CheckSettings

/-- What a check is set to once a layer sets `s` for it. -/
def put (old? : Option CheckSettings) (s : CheckSettings) : CheckSettings :=
  match old? with
  | some old => old.overlay s
  | none => s

theorem overlay_assoc (a b c : CheckSettings) : (a.overlay b).overlay c = a.overlay (b.overlay c) := by
  simp only [overlay, Layer.option_assoc]

end CheckSettings

namespace Config

/-- The settings of the checks stand in order, as they do in every table that was filled by its operations. -/
def Ordered (c : Config) : Prop := c.checks.Ordered

section Checks

variable {lower upper top : Table CheckSettings}

/-- **The section of a check is put together by itself.** -/
theorem get?_overlayChecks (hupper : upper.Ordered) (lower : Table CheckSettings) (code : Text) :
    (overlayChecks lower upper).get? code =
      (lower.get? code).merge CheckSettings.overlay (upper.get? code) := by
  have hstep (t : Table CheckSettings) (e : Text × CheckSettings) (j : Text) :
      (t.insert e.1 (CheckSettings.put (t.get? e.1) e.2)).get? j =
        if j = e.1 then some (CheckSettings.put (t.get? j) e.2) else t.get? j := by
    rw [Table.get?_insert]
    by_cases hj : j = e.1
    · rw [if_pos hj, if_pos hj, hj]
    · rw [if_neg hj, if_neg hj]
  refine (hupper.get?_foldl_change (fun old s => some (CheckSettings.put old s)) hstep lower code).trans ?_
  cases lower.get? code with
  | none => cases upper.get? code <;> rfl
  | some old => cases upper.get? code <;> rfl

theorem ordered_overlayChecks (hlower : lower.Ordered) (upper : Table CheckSettings) :
    (overlayChecks lower upper).Ordered :=
  Table.ordered_foldl (fun _ e ht => ht.insert e.1 _) upper.entries hlower

theorem overlayChecks_assoc (hlower : lower.Ordered) (hupper : upper.Ordered) (htop : top.Ordered) :
    overlayChecks (overlayChecks lower upper) top = overlayChecks lower (overlayChecks upper top) := by
  have hordered := ordered_overlayChecks hupper top
  refine (ordered_overlayChecks (ordered_overlayChecks hlower upper) top).ext
    (ordered_overlayChecks hlower _) fun code => ?_
  rw [get?_overlayChecks htop, get?_overlayChecks hupper, get?_overlayChecks hordered, get?_overlayChecks htop]
  cases lower.get? code with
  | none => cases upper.get? code <;> cases top.get? code <;> rfl
  | some a =>
    cases upper.get? code with
    | none => cases top.get? code <;> rfl
    | some b =>
      cases top.get? code with
      | none => rfl
      | some c => exact congrArg some (CheckSettings.overlay_assoc a b c)

theorem empty_overlayChecks (hupper : upper.Ordered) : overlayChecks {} upper = upper := by
  refine (ordered_overlayChecks Table.ordered_empty upper).ext hupper fun code => ?_
  rw [get?_overlayChecks hupper]
  cases upper.get? code <;> rfl

end Checks

/-! ## Whole configurations -/

section Overlay

variable {a b c : Config}

/-- **Layers can be put together in any grouping.** -/
theorem overlay_assoc (ha : a.Ordered) (hb : b.Ordered) (hc : c.Ordered) :
    (a.overlay b).overlay c = a.overlay (b.overlay c) := by
  simp only [Config.overlay, Layer.text_assoc, Layer.number_assoc, Layer.option_assoc, Bool.or_assoc,
    overlayChecks_assoc ha hb hc]

/-- **A layer over one that sets nothing** stays as it is. -/
theorem empty_overlay (hc : c.Ordered) : overlay {} c = c := by
  have htext (t : Text) : Layer.text [] t = t := by cases t <;> rfl
  have hnumber (n : Int) : Layer.number 0 n = n := by
    by_cases h : n = 0
    · simp [Layer.number, h]
    · simp [Layer.number, h]
  have hoption {α : Type} (o : Option α) : Layer.option none o = o := Option.or_none
  simp only [overlay, htext, hnumber, hoption, Bool.false_or, empty_overlayChecks hc]

/-- **A layer that sets nothing** leaves all as it is. -/
theorem overlay_empty (c : Config) : overlay c {} = c := by
  simp [overlay, overlayChecks, Layer.text, Layer.number, Layer.option]

end Overlay

/-! ## Many layers -/

/-- What the last layer sets that sets it. -/
def lastSet {α β : Type} (set? : α → Option β) (layers : List α) : Option β :=
  (layers.filterMap set?).getLast?

theorem lastSet_append_singleton {α β : Type} (set? : α → Option β) (layers : List α) (top : α) :
    lastSet set? (layers ++ [top]) = (set? top).or (lastSet set? layers) := by
  rw [lastSet, List.filterMap_append, List.getLast?_append]
  cases htop : set? top with
  | none => simp [htop, lastSet]
  | some v => simp [htop]

/-- Whether the check is set to run. -/
def enabled? (c : Config) (code : Text) : Option Bool := (c.checks.get? code).bind (·.enabled)

/-- A configuration that some layers come to, the lowest first. -/
structure Composes (layers : List Config) (c : Config) : Prop where
  baseline : c.baseline = (lastSet (fun l => Layer.setText l.baseline) layers).getD []
  format : c.format = (lastSet (fun l => Layer.setText l.format) layers).getD []
  jobs : c.jobs = (lastSet (fun l => Layer.setNumber l.jobs) layers).getD 0
  mode : c.backups.mode = (lastSet (fun l => Layer.setText l.backups.mode) layers).getD []
  ignore : c.ignore = lastSet (·.ignore) layers
  enable : c.enable = lastSet (·.enable) layers
  disable : c.disable = lastSet (·.disable) layers
  /-- A check has a section if a layer has one for it. -/
  sections : ∀ code, c.checks.contains code = layers.any (·.checks.contains code)
  checkEnabled : ∀ code, c.enabled? code = lastSet (·.enabled? code) layers
  checkSeverity : ∀ code, c.severity? code = lastSet (·.severity? code) layers
  checkIgnore : ∀ code, c.ignore? code = lastSet (·.ignore? code) layers
  fix : c.fix = layers.any (·.fix)
  dryRun : c.dryRun = layers.any (·.dryRun)
  noBackups : c.noBackups = layers.any (·.noBackups)
  backups : c.backups.enabled = layers.any (·.backups.enabled)

section Composes

variable {lowest : Config} {rest : List Config}

/-- A field that the upper of two layers decides if it sets it is decided by the last layer that sets it. -/
theorem lastSet_foldl {β : Type} (set? : Config → Option β) (hrest : ∀ l ∈ rest, l.Ordered)
    (hset : ∀ a b : Config, b.Ordered → set? (a.overlay b) = (set? b).or (set? a)) :
    set? (rest.foldl overlay lowest) = lastSet set? (lowest :: rest) := by
  induction rest using List.reverseRecOn with
  | nil =>
    cases h : set? lowest with
    | none => simp [lastSet, h]
    | some v => simp [lastSet, h]
  | append_singleton below top ih =>
    have hbelow := ih fun l hl => hrest l (List.mem_append_left _ hl)
    have htop := hrest top (List.mem_append_right _ (List.mem_singleton_self top))
    rw [List.foldl_concat, hset _ top htop, hbelow, ← List.cons_append, lastSet_append_singleton]

/-- A truth value that holds of two layers if it holds of one of them holds of many if it holds of one. -/
theorem any_foldl (holds : Config → Bool) (hrest : ∀ l ∈ rest, l.Ordered)
    (hor : ∀ a b : Config, b.Ordered → holds (a.overlay b) = (holds a || holds b)) :
    holds (rest.foldl overlay lowest) = (lowest :: rest).any holds := by
  induction rest using List.reverseRecOn with
  | nil => simp
  | append_singleton below top ih =>
    have hbelow := ih fun l hl => hrest l (List.mem_append_left _ hl)
    have htop := hrest top (List.mem_append_right _ (List.mem_singleton_self top))
    rw [List.foldl_concat, hor _ top htop, hbelow, ← List.cons_append, List.any_append]
    simp

/-- A field of the section of a check is put together as the fields outside of sections are. -/
theorem bind_overlay {β : Type} (field : CheckSettings → Option β)
    (hfield : ∀ s t : CheckSettings, field (s.overlay t) = (field t).or (field s)) (a : Config) {b : Config}
    (hb : b.Ordered) (code : Text) :
    ((a.overlay b).checks.get? code).bind field =
      ((b.checks.get? code).bind field).or ((a.checks.get? code).bind field) := by
  have hget := get?_overlayChecks hb a.checks code
  refine (congrArg (·.bind field) hget).trans ?_
  cases a.checks.get? code with
  | none => cases b.checks.get? code <;> simp [Option.merge]
  | some s =>
    cases b.checks.get? code with
    | none => simp [Option.merge]
    | some t => simpa [Option.merge] using hfield s t

/-- **What layers come to**, field by field. -/
theorem composes_foldl (hrest : ∀ l ∈ rest, l.Ordered) :
    Composes (lowest :: rest) (rest.foldl overlay lowest) where
  baseline := by
    rw [← lastSet_foldl (fun l => Layer.setText l.baseline) hrest fun _ _ _ => Layer.setText_text ..,
      Layer.getD_setText]
  format := by
    rw [← lastSet_foldl (fun l => Layer.setText l.format) hrest fun _ _ _ => Layer.setText_text ..,
      Layer.getD_setText]
  jobs := by
    rw [← lastSet_foldl (fun l => Layer.setNumber l.jobs) hrest fun _ _ _ => Layer.setNumber_number ..,
      Layer.getD_setNumber]
  mode := by
    rw [← lastSet_foldl (fun l => Layer.setText l.backups.mode) hrest fun _ _ _ => Layer.setText_text ..,
      Layer.getD_setText]
  ignore := lastSet_foldl (·.ignore) hrest fun _ _ _ => rfl
  enable := lastSet_foldl (·.enable) hrest fun _ _ _ => rfl
  disable := lastSet_foldl (·.disable) hrest fun _ _ _ => rfl
  sections code := any_foldl (·.checks.contains code) hrest fun a b hb => by
    have hget := get?_overlayChecks hb a.checks code
    refine (congrArg Option.isSome hget).trans ?_
    simp only [Table.contains]
    cases a.checks.get? code <;> cases b.checks.get? code <;> rfl
  checkEnabled code := lastSet_foldl (·.enabled? code) hrest fun a _ hb =>
    bind_overlay (·.enabled) (fun _ _ => rfl) a hb code
  checkSeverity code := lastSet_foldl (·.severity? code) hrest fun a _ hb =>
    bind_overlay (·.severity) (fun _ _ => rfl) a hb code
  checkIgnore code := lastSet_foldl (·.ignore? code) hrest fun a _ hb =>
    bind_overlay (·.ignore) (fun _ _ => rfl) a hb code
  fix := any_foldl (·.fix) hrest fun _ _ _ => rfl
  dryRun := any_foldl (·.dryRun) hrest fun _ _ _ => rfl
  noBackups := any_foldl (·.noBackups) hrest fun _ _ _ => rfl
  backups := any_foldl (·.backups.enabled) hrest fun _ _ _ => rfl

end Composes

/-! ## Layers that may be missing -/

/-- A layer over another one; a missing one makes no difference. -/
def overlay? : (lower upper : Option Config) → Option Config := Option.merge overlay

theorem overlay?_assoc {a b c : Option Config} (ha : ∀ l ∈ a, l.Ordered) (hb : ∀ l ∈ b, l.Ordered)
    (hc : ∀ l ∈ c, l.Ordered) : overlay? (overlay? a b) c = overlay? a (overlay? b c) := by
  cases a with
  | none => cases b <;> cases c <;> rfl
  | some a =>
    cases b with
    | none => cases c <;> rfl
    | some b =>
      cases c with
      | none => rfl
      | some c => exact congrArg some (overlay_assoc (ha a rfl) (hb b rfl) (hc c rfl))

theorem foldl_overlay?_some (layers : List (Option Config)) (lowest : Config) :
    layers.foldl overlay? (some lowest) = some ((layers.filterMap id).foldl overlay lowest) := by
  induction layers generalizing lowest with
  | nil => rfl
  | cons layer rest ih =>
    cases layer with
    | none => exact ih lowest
    | some l => exact ih (lowest.overlay l)

/-- **All layers are put together one after the other.** -/
theorem overlayAll_eq_foldl (layers : List (Option Config)) :
    overlayAll layers = layers.foldl overlay? none := by
  induction layers with
  | nil => rfl
  | cons layer rest ih =>
    cases layer with
    | none => exact ih
    | some l => exact (foldl_overlay?_some rest l).symm

/-- All layers come to something, unless all are missing. -/
theorem composes_overlayAll {layers : List (Option Config)} (h : ∀ l, some l ∈ layers → l.Ordered) :
    (overlayAll layers = none ↔ ∀ l ∈ layers, l = none) ∧
      ∀ c, overlayAll layers = some c → Composes (layers.filterMap id) c := by
  have hpresent : ∀ l ∈ layers.filterMap id, l.Ordered := fun l hl => h l (by simpa using hl)
  have hnone : layers.filterMap id = [] ↔ ∀ l ∈ layers, l = none := List.filterMap_eq_nil_iff
  rw [← hnone, overlayAll]
  cases hlayers : layers.filterMap id with
  | nil => simp
  | cons lowest rest =>
    rw [hlayers] at hpresent
    refine ⟨by simp, fun c hc => ?_⟩
    obtain rfl := Option.some.inj hc
    exact composes_foldl fun l hl => hpresent l (List.mem_cons_of_mem _ hl)

/-! ## Layers that are shared -/

/-- A configuration in memory. -/
structure Record where
  /-- The fields; the settings of checks in it do not count. -/
  fields : Config
  /-- Where the table with the settings of checks lies, if there is one. -/
  table : Option Nat

/-- Configurations and tables, by their addresses. -/
structure Memory where
  records : List Record := []
  tables : List (Table CheckSettings) := []

namespace Memory

/-- The table at an address; one that is missing reads as an empty one. -/
def tableAt (m : Memory) (table : Option Nat) : Table CheckSettings := (table.bind (m.tables[·]?)).getD {}

/-- The configuration that a record stands for. -/
def resolve (m : Memory) (r : Record) : Config := { r.fields with checks := m.tableAt r.table }

/-- The configuration at an address. -/
def read? (m : Memory) (a : Nat) : Option Config := (m.records[a]?).map m.resolve

/-- A record is changed. -/
def write (m : Memory) (a : Nat) (change : Record → Record) : Memory :=
  { m with records := m.records.modify a change }

/-- A table is changed. -/
def writeTable (m : Memory) (i : Nat) (change : Table CheckSettings → Table CheckSettings) : Memory :=
  { m with tables := m.tables.modify i change }

/-- A table of its own for the result: that of the lower layer is copied, and the entries of that of the upper
one are set in the copy. -/
def mergeTables (m : Memory) (lower upper : Option Nat) : Memory :=
  let copied := { m with tables := m.tables ++ [m.tableAt lower] }
  (copied.tableAt upper).entries.foldl (fun m' (code, s) =>
    m'.writeTable m.tables.length fun t => t.insert code (match t.get? code with
      | some old => old.overlay s
      | none => s)) copied

/-- A layer over another one.  The record of the lower one is copied, and the upper one assigns to the copy. -/
def merge (m : Memory) : (lower upper : Option Nat) → Memory × Option Nat
  | none, upper => (m, upper)
  | some lower, none => (m, some lower)
  | some lower, some upper =>
    match m.records[lower]?, m.records[upper]? with
    | some l, some u =>
      let result := m.records.length
      let copied := { m with records := m.records ++ [l] }
      let assigned := copied.write result fun r => { r with fields := r.fields.overlay u.fields }
      let merged := assigned.mergeTables l.table u.table
      (merged.write result fun r => { r with table := some m.tables.length }, some result)
    | _, _ => (m, none)

/-- All layers one above the other, the lowest first. -/
def mergeAll (m : Memory) (layers : List (Option Nat)) : Memory × Option Nat :=
  layers.foldl (fun out upper => out.1.merge out.2 upper) (m, none)

/-- What lies at an address that may be missing. -/
def read (m : Memory) (layer : Option Nat) : Option Config := layer.bind m.read?

/-- Every record knows a table that is there, and all tables are in order. -/
structure Sound (m : Memory) : Prop where
  tables : ∀ r ∈ m.records, ∀ i ∈ r.table, i < m.tables.length
  ordered : ∀ t ∈ m.tables, t.Ordered

/-- There is a configuration at an address, unless that is missing. -/
def Holds (m : Memory) (layer : Option Nat) : Prop := ∀ a ∈ layer, a < m.records.length

/-- Whatever could be read can still be read, and reads the same. -/
def Keeps (m m' : Memory) : Prop := ∀ a c, m.read? a = some c → m'.read? a = some c

variable {m m' m'' : Memory} {lower upper : Option Nat}

/-! ## Writes to what was laid out for the result -/

theorem modify_append_length {α : Type} (l : List α) (x : α) (f : α → α) :
    (l ++ [x]).modify l.length f = l ++ [f x] := by
  simp [List.modify_eq_take_drop]

theorem foldl_writeTable (change : Table CheckSettings → Text × CheckSettings → Table CheckSettings)
    (entries : List (Text × CheckSettings)) (m : Memory) (t : Table CheckSettings) :
    entries.foldl (fun m' e => m'.writeTable m.tables.length fun t => change t e)
        { m with tables := m.tables ++ [t] } =
      { m with tables := m.tables ++ [entries.foldl change t] } := by
  induction entries generalizing t with
  | nil => rfl
  | cons e rest ih =>
    rw [List.foldl_cons, List.foldl_cons, ← ih (change t e)]
    simp only [writeTable, modify_append_length]

theorem tableAt_append (m : Memory) (more : List (Table CheckSettings)) {table : Option Nat}
    (h : ∀ i ∈ table, i < m.tables.length) :
    Memory.tableAt { m with tables := m.tables ++ more } table = m.tableAt table := by
  cases table with
  | none => rfl
  | some i => simp [tableAt, List.getElem?_append_left (h i rfl)]

theorem mergeTables_eq (m : Memory) (lower : Option Nat) (h : ∀ i ∈ upper, i < m.tables.length) :
    m.mergeTables lower upper =
      { m with tables := m.tables ++ [overlayChecks (m.tableAt lower) (m.tableAt upper)] } := by
  simp only [mergeTables]
  rw [tableAt_append m _ h]
  exact foldl_writeTable _ (m.tableAt upper).entries m (m.tableAt lower)

/-- A memory with one more record, whose checks lie in a table of its own. -/
def layOut (m : Memory) (fields : Config) (t : Table CheckSettings) : Memory :=
  ⟨m.records ++ [⟨fields, some m.tables.length⟩], m.tables ++ [t]⟩

/-- **Two layers** that are there come to a record and a table that were not there before. -/
theorem merge_some (hm : m.Sound) {a b : Nat} {l u : Record} (hl : m.records[a]? = some l)
    (hu : m.records[b]? = some u) :
    m.merge (some a) (some b) =
      (m.layOut (l.fields.overlay u.fields)
        (overlayChecks (m.tableAt l.table) (m.tableAt u.table)), some m.records.length) := by
  have htable := hm.tables u (List.mem_of_getElem? hu)
  have hmerged := mergeTables_eq ⟨m.records ++ [⟨l.fields.overlay u.fields, l.table⟩], m.tables⟩ l.table htable
  simp only [merge, hl, hu, write, modify_append_length]
  rw [hmerged, modify_append_length]
  rfl

/-! ## What stays and what is read -/

theorem read?_layOut (hm : m.Sound) (fields : Config) (t : Table CheckSettings) :
    Keeps m (m.layOut fields t) := by
  intro a c h
  obtain ⟨r, hr, rfl⟩ := Option.map_eq_some_iff.mp h
  have ha : a < m.records.length := (List.getElem?_eq_some_iff.mp hr).1
  have htable := hm.tables r (List.mem_of_getElem? hr)
  have hrecord : (m.layOut fields t).records[a]? = some r :=
    (List.getElem?_append_left ha).trans hr
  rw [read?, hrecord]
  exact congrArg (fun table => some { r.fields with checks := table }) (tableAt_append m [t] htable)

theorem read?_layOut_length (m : Memory) (fields : Config) (t : Table CheckSettings) :
    (m.layOut fields t).read? m.records.length = some { fields with checks := t } := by
  simp [read?, layOut, resolve, tableAt]

theorem Sound.layOut (hm : m.Sound) (fields : Config) {t : Table CheckSettings} (ht : t.Ordered) :
    (m.layOut fields t).Sound where
  tables r hr i hi := by
    rw [Memory.layOut, List.length_append, List.length_singleton]
    rcases List.mem_append.mp hr with hr | hr
    · exact Nat.lt_succ_of_lt (hm.tables r hr i hi)
    · obtain rfl := List.mem_singleton.mp hr
      obtain rfl := Option.some.inj hi
      exact Nat.lt_succ_self _
  ordered t' ht' := by
    rcases List.mem_append.mp ht' with ht' | ht'
    · exact hm.ordered t' ht'
    · exact List.mem_singleton.mp ht' ▸ ht

theorem Sound.tableAt_ordered (hm : m.Sound) (table : Option Nat) : (m.tableAt table).Ordered := by
  cases h : table.bind (m.tables[·]?) with
  | none => simpa [tableAt, h] using Table.ordered_empty
  | some t =>
    obtain ⟨i, -, hi⟩ := Option.bind_eq_some_iff.mp h
    simpa [tableAt, h] using hm.ordered t (List.mem_of_getElem? hi)

theorem Keeps.refl (m : Memory) : Keeps m m := fun _ _ h => h

theorem Keeps.trans (h : Keeps m m') (h' : Keeps m' m'') : Keeps m m'' := fun a c hc => h' a c (h a c hc)

theorem read?_of_lt {a : Nat} (h : a < m.records.length) : m.read? a = some (m.resolve m.records[a]) := by
  simp [read?, h]

/-- What lies at an address in use reads the same where all is kept. -/
theorem Keeps.read (h : Keeps m m') {layer : Option Nat} (hlayer : m.Holds layer) :
    m'.read layer = m.read layer := by
  cases layer with
  | none => rfl
  | some a =>
    have ha := read?_of_lt (hlayer a rfl)
    exact (h a _ ha).trans ha.symm

theorem Keeps.holds (h : Keeps m m') {layer : Option Nat} (hlayer : m.Holds layer) : m'.Holds layer := by
  intro a ha
  obtain ⟨r, hr, -⟩ := Option.map_eq_some_iff.mp (h a _ (read?_of_lt (hlayer a ha)))
  exact (List.getElem?_eq_some_iff.mp hr).1

/-- What putting layers together leaves behind: all that was there, and a result that reads as it should. -/
structure Merged (m : Memory) (c : Option Config) (out : Memory × Option Nat) : Prop where
  sound : out.1.Sound
  keeps : Keeps m out.1
  holds : out.1.Holds out.2
  reads : out.1.read out.2 = c

/-- **One layer over another one.** -/
theorem merged_merge (hm : m.Sound) (hlower : m.Holds lower) (hupper : m.Holds upper) :
    Merged m (overlay? (m.read lower) (m.read upper)) (m.merge lower upper) := by
  cases lower with
  | none => exact ⟨hm, Keeps.refl m, hupper, Option.merge_none_left.symm⟩
  | some a =>
    cases upper with
    | none => exact ⟨hm, Keeps.refl m, hlower, Option.merge_none_right.symm⟩
    | some b =>
      have hl := List.getElem?_eq_getElem (hlower a rfl)
      have hu := List.getElem?_eq_getElem (hupper b rfl)
      rw [merge_some hm hl hu]
      refine ⟨hm.layOut _ (ordered_overlayChecks (hm.tableAt_ordered _) _), read?_layOut hm _ _, ?_, ?_⟩
      · intro i hi
        obtain rfl := Option.some.inj hi
        simp [layOut]
      · refine (read?_layOut_length m _ _).trans ?_
        simp only [read, Option.bind_some, read?, hl, hu, Option.map_some, overlay?, Option.merge]
        rfl

theorem merged_foldl (layers : List (Option Nat)) (hm : m.Sound) (hlower : m.Holds lower)
    (hlayers : ∀ l ∈ layers, m.Holds l) :
    Merged m ((layers.map m.read).foldl overlay? (m.read lower))
      (layers.foldl (fun out upper => out.1.merge out.2 upper) (m, lower)) := by
  induction layers generalizing m lower with
  | nil => exact ⟨hm, Keeps.refl m, hlower, rfl⟩
  | cons upper rest ih =>
    have hstep := merged_merge hm hlower (hlayers upper (List.mem_cons_self ..))
    have hrest : ∀ l ∈ rest, m.Holds l := fun l hl => hlayers l (List.mem_cons_of_mem _ hl)
    have hall := ih hstep.sound hstep.holds fun l hl => hstep.keeps.holds (hrest l hl)
    have hreads : rest.map (m.merge lower upper).1.read = rest.map m.read :=
      List.map_congr_left fun l hl => hstep.keeps.read (hrest l hl)
    refine ⟨hall.sound, hstep.keeps.trans hall.keeps, hall.holds, ?_⟩
    rw [List.foldl_cons, hall.reads, hstep.reads, hreads, List.map_cons, List.foldl_cons]

/-- **Layers in memory are put together** as they are by value, and all that was there stays as it was. -/
theorem merged_mergeAll (hm : m.Sound) {layers : List (Option Nat)} (h : ∀ l ∈ layers, m.Holds l) :
    Merged m (overlayAll (layers.map m.read)) (m.mergeAll layers) := by
  rw [overlayAll_eq_foldl]
  have hnone : m.Holds none := by simp [Holds]
  exact merged_foldl layers hm hnone h

end Memory

/-! ## The whole of it -/

/-- **Layers compose.**  They may be put together in any grouping, one that sets nothing makes no difference,
and all of them come to what `Composes` says, however many there are.  Put together in memory they come to the
same, and every configuration that was there reads as it did before. -/
theorem layers_compose :
    (∀ a b c : Option Config, (∀ l ∈ a, l.Ordered) → (∀ l ∈ b, l.Ordered) → (∀ l ∈ c, l.Ordered) →
      overlay? (overlay? a b) c = overlay? a (overlay? b c)) ∧
    (∀ c : Config, c.Ordered → overlay {} c = c ∧ overlay c {} = c) ∧
    (∀ layers : List (Option Config), (∀ l, some l ∈ layers → l.Ordered) →
      overlayAll layers = layers.foldl overlay? none ∧
      (overlayAll layers = none ↔ ∀ l ∈ layers, l = none) ∧
      ∀ c, overlayAll layers = some c → Composes (layers.filterMap id) c) ∧
    ∀ (m : Memory) (layers : List (Option Nat)), m.Sound → (∀ l ∈ layers, m.Holds l) →
      (m.mergeAll layers).1.read (m.mergeAll layers).2 = overlayAll (layers.map m.read) ∧
      ∀ a c, m.read? a = some c → (m.mergeAll layers).1.read? a = some c := by
  refine ⟨fun a b c ha hb hc => overlay?_assoc ha hb hc, fun c hc => ⟨empty_overlay hc, overlay_empty c⟩,
    fun layers h => ⟨overlayAll_eq_foldl layers, composes_overlayAll h⟩, fun m layers hm h => ?_⟩
  have hmerged := Memory.merged_mergeAll hm h
  exact ⟨hmerged.reads, hmerged.keeps⟩

/-- A layer that sets the severity of a check over one that sets which files the check leaves alone. -/
theorem layers_compose_sections :
    ∃ m : Memory, ∃ lower upper : Config,
      m.Sound ∧ m.read? 0 = some lower ∧ m.read? 1 = some upper ∧
      (m.mergeAll [none, some 0, some 1]).1.read? 0 = some lower ∧
      (m.mergeAll [none, some 0, some 1]).1.read? 1 = some upper ∧
      (m.mergeAll [none, some 0, some 1]).1.read (m.mergeAll [none, some 0, some 1]).2 =
        some (lower.overlay upper) ∧
      Composes [lower, upper] (lower.overlay upper) ∧
      (lower.overlay upper).severity? "SyntaxError" = some (Text.ofString "style") ∧
      (lower.overlay upper).ignore? "SyntaxError" = some [Text.ofString "x/**"] ∧
      overlay? (overlay? (some lower) none) (some upper) = overlay? (some lower) (overlay? none (some upper)) ∧
      overlay {} lower = lower ∧ lower.ignore? "SyntaxError" = some [Text.ofString "x/**"] := by
  let below : Table CheckSettings :=
    Table.insert {} "SyntaxError" { enabled := some true, ignore := some [Text.ofString "x/**"] }
  let above : Table CheckSettings :=
    Table.insert (Table.insert {} "UnusedAssign" { enabled := some false }) "SyntaxError"
      { severity := some (Text.ofString "style") }
  let m : Memory :=
    { records := [⟨standard, some 0⟩, ⟨{ baseline := "nothing" }, some 1⟩], tables := [below, above] }
  let lower : Config := { standard with checks := below }
  let upper : Config := { baseline := "nothing", checks := above }
  have hbelow : below.Ordered := Table.ordered_empty.insert _ _
  have habove : above.Ordered := (Table.ordered_empty.insert _ _).insert _ _
  have hm : m.Sound := by
    refine ⟨by simp [m], ?_⟩
    simp [m, hbelow, habove]
  have hlayers : ∀ l ∈ [none, some 0, some 1], m.Holds l := by simp [Memory.Holds, m]
  obtain ⟨hassoc, hidentity, hall, hmemory⟩ := layers_compose
  obtain ⟨hreads, hkeeps⟩ := hmemory m _ hm hlayers
  have hordered : ∀ l, some l ∈ [some lower, some upper] → l.Ordered := by
    simp [Ordered, lower, upper, hbelow, habove]
  exact ⟨m, lower, upper, hm, rfl, rfl, hkeeps 0 lower rfl, hkeeps 1 upper rfl, hreads,
    (hall [some lower, some upper] hordered).2.2 _ rfl, by decide, by decide,
    hassoc (some lower) none (some upper) (by simpa [Ordered] using hbelow) (by simp)
      (by simpa [Ordered] using habove),
    (hidentity lower hbelow).1, by decide⟩

end Config
end LiquidLint
