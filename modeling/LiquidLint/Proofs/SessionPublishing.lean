import LiquidLint.Proofs.OrderedTables
import LiquidLint.Proofs.SessionVersions

/-!
# What a session publishes

A client keeps a table of the offenses of each path and applies to it what a session publishes.  It
shows a path only if the path has offenses, so a session that has told of a path that it has no
offenses, and one that has told nothing of it, look the same (`shown`).

What a session publishes is the difference between what is to be shown and what was told before
(`Tidy.get?_news`), and afterwards there is none (`Tidy.shown_publish`).  As calls that change the
session leave alone what was told, a client that has applied all that was published shows exactly that
(`Mirror.Faithful`), through calls in any order (`faithful_run`).
-/

namespace LiquidLint
namespace Session

/-! ## What is to be shown -/

/-- What is shown of a path with the given offenses: nothing, where there are none. -/
def shown (offenses : Option (List Offense)) : Option (List Offense) :=
  offenses.filter fun os => !os.isEmpty

@[simp] theorem shown_none : shown none = none := rfl

@[simp] theorem shown_nil : shown (some []) = none := rfl

@[simp] theorem shown_cons (o : Offense) (os : List Offense) :
    shown (some (o :: os)) = some (o :: os) := rfl

theorem shown_inj {os os' : List Offense} : shown (some os) = shown (some os') ↔ os = os' := by
  cases os <;> cases os' <;> simp

/-- An empty list stands for showing nothing. -/
theorem shown_getD_shown (offenses : Option (List Offense)) :
    shown (some ((shown offenses).getD [])) = shown offenses := by
  rcases offenses with _ | _ | ⟨o, os⟩ <;> rfl

/-- The offenses of each path that has some. -/
def view (s : Session) : Table (List Offense) :=
  (s.records.map Record.offenses).filter fun _ os => !os.isEmpty

/-- The offenses that are recorded of a path. -/
def current (s : Session) (path : Text) : Option (List Offense) :=
  (s.records.get? path).map Record.offenses

/-- What was told and what is recorded stand in order. -/
structure Tidy (s : Session) : Prop where
  records : s.records.Ordered
  published : s.published.Ordered

section Publish

variable {s : Session}

theorem contains_records (s : Session) (path : Text) :
    s.records.contains path = (s.current path).isSome := by
  unfold Table.contains current
  rw [Option.isSome_map]

theorem Tidy.get?_filter (hs : s.Tidy) (q : Text → List Offense → Bool) (path : Text) :
    ((s.records.map Record.offenses).filter q).get? path = (s.current path).filter (q path) := by
  unfold current
  rw [(hs.records.map _).get?_filter, Table.get?_map]

theorem Tidy.get?_view (hs : s.Tidy) (path : Text) : s.view.get? path = shown (s.current path) :=
  hs.get?_filter _ path

/-- **Offenses are news exactly if they change what is shown.** -/
theorem isNews_iff (path : Text) (os : List Offense) :
    s.isNews path os = true ↔ shown (some os) ≠ shown (s.published.get? path) := by
  unfold isNews
  cases s.published.get? path with
  | none => cases os <;> simp
  | some told => exact decide_eq_true_iff.trans (not_congr shown_inj.symm)

/-- **What is published of a path is the change of what is shown.** -/
theorem Tidy.get?_news (hs : s.Tidy) (path : Text) :
    s.publish.2.get? path =
      if shown (s.current path) = shown (s.published.get? path) then none
      else some ((shown (s.current path)).getD []) := by
  -- what was told of paths that are no longer recorded
  have hgone : (s.published.filter fun path _ => !s.records.contains path).Ordered :=
    hs.published.filter _
  have hcleared : ((s.published.filter fun path _ => !s.records.contains path).filter
      fun _ told => !told.isEmpty).get? path =
        shown ((s.published.get? path).filter fun _ => !s.records.contains path) := by
    rw [hgone.get?_filter, hs.published.get?_filter]
    rfl
  unfold publish
  dsimp only
  rw [(hgone.filter _).get?_foldl (fun _ => some []) fun u e k => u.get?_insert e.1 k [], hcleared,
    hs.get?_filter, contains_records]
  cases s.current path with
  | none =>
    -- such a path is cleared if offenses of it were told
    rcases s.published.get? path with _ | _ | ⟨o, told⟩ <;> rfl
  | some os =>
    have hkept : ((s.published.get? path).filter fun _ => !(some os).isSome) = none := by
      cases s.published.get? path <;> rfl
    rw [hkept, Option.filter_some]
    by_cases hsame : shown (some os) = shown (s.published.get? path)
    · rw [if_pos hsame, if_neg fun h => (isNews_iff path os).1 h hsame]
      rfl
    · rw [if_neg hsame, if_pos ((isNews_iff path os).2 hsame)]
      cases os <;> rfl

theorem Tidy.publish (hs : s.Tidy) : s.publish.1.Tidy := by
  refine ⟨hs.records, Table.ordered_foldl (fun _ _ hu => hu.insert ..) _ ?_⟩
  exact hs.published.filter _

theorem Tidy.news (hs : s.Tidy) : s.publish.2.Ordered :=
  Table.ordered_foldl (fun _ _ hu => hu.insert ..) _ ((hs.records.map _).filter _)

/-- **What was told after publishing is what is to be shown.** -/
theorem Tidy.shown_publish (hs : s.Tidy) (path : Text) :
    shown (s.publish.1.published.get? path) = shown (s.current path) := by
  unfold Session.publish
  dsimp only
  rw [((hs.records.map _).filter _).get?_foldl some fun u e k => u.get?_insert e.1 k e.2,
    hs.get?_filter, hs.published.get?_filter, contains_records]
  cases s.current path with
  | none => cases s.published.get? path <;> rfl
  | some os =>
    rw [Option.filter_some]
    by_cases hnew : s.isNews path os = true
    · rw [if_pos hnew]
      rfl
    · rw [if_neg hnew]
      have hsame : shown (some os) = shown (s.published.get? path) :=
        not_not.1 fun h => hnew ((isNews_iff path os).2 h)
      rw [hsame]
      cases s.published.get? path <;> rfl

end Publish

/-! ## Calls that change a session -/

/-- A property of sessions that setting and dropping a path keep is kept by every call. -/
theorem change_induction {P : Session → Prop}
    (hset : ∀ s path r, P s → P (s.setRecord path r))
    (hforget : ∀ s path version, P s → P (s.forgetAt path version))
    {s : Session} (hs : P s) (c : Change) : P (s.change c).1 := by
  have hoffer (s : Session) (path : Text) (r : Record) (hs : P s) : P (s.offer path r).1 := by
    unfold offer
    split
    · exact hs
    · exact hset s path r hs
  cases c with
  | record path version offenses =>
    rw [change_record]
    exact hoffer s path _ hs
  | forget path => exact hforget s path 0 hs
  | forgetAt path version => exact hforget s path version hs
  | recordRun findings =>
    -- the paths that the run touches are recorded one after the other
    have hpaths (paths : List Text) (n : Nat) : P (recordPaths findings paths s n).1 := by
      induction paths generalizing s n with
      | nil => exact hs
      | cons first rest ih =>
        have hfirst : P (s.recordPath findings first).1 := by
          rw [recordPath_eq]
          exact hoffer s first _ hs
        rw [recordPaths_cons]
        exact ih hfirst _
    exact hpaths _ 0

/-- Calls that change a session keep it tidy and leave alone what was told. -/
theorem Tidy.change {s : Session} (hs : s.Tidy) (c : Change) :
    (s.change c).1.Tidy ∧ (s.change c).1.published = s.published := by
  let P (t : Session) : Prop := t.Tidy ∧ t.published = s.published
  refine @change_induction P (fun t path r ht => ?_) (fun t path version ht => ?_) s ⟨hs, rfl⟩ c
  · exact ⟨⟨ht.1.records.insert path r, ht.1.published⟩, ht.2⟩
  · exact ⟨⟨ht.1.records.erase path, ht.1.published⟩, ht.2⟩

/-! ## Clients -/

/-- What a client does with what is published: it takes over the offenses of each path that is listed,
and clears the path where there are none. -/
def follow (client news : Table (List Offense)) : Table (List Offense) :=
  news.entries.foldl
    (fun client e => if e.2.isEmpty then client.erase e.1 else client.insert e.1 e.2) client

theorem get?_follow (client : Table (List Offense)) {news : Table (List Offense)}
    (hnews : news.Ordered) (path : Text) :
    (follow client news).get? path =
      (news.get? path).elim (client.get? path) fun os => shown (some os) := by
  refine hnews.get?_foldl (fun os => shown (some os)) (fun u e k => ?_) client path
  rcases e with ⟨name, _ | ⟨o, os⟩⟩
  · exact u.get?_erase name k
  · exact u.get?_insert name k (o :: os)

theorem ordered_follow {client : Table (List Offense)} (hclient : client.Ordered)
    (news : Table (List Offense)) : (follow client news).Ordered := by
  refine Table.ordered_foldl (fun u e hu => ?_) _ hclient
  split
  · exact hu.erase _
  · exact hu.insert ..

/-- A call to a session that a client follows. -/
inductive Request where
  | change (c : Change)
  | publish

/-- A session and a client that follows it. -/
structure Mirror where
  session : Session := {}
  client : Table (List Offense) := {}

namespace Mirror

/-- The session and the client after a call. -/
def step (m : Mirror) : Request → Mirror
  | .change c => { m with session := (m.session.change c).1 }
  | .publish => ⟨m.session.publish.1, follow m.client m.session.publish.2⟩

/-- The session and the client after calls; both start empty. -/
def run (requests : List Request) : Mirror := requests.foldl step {}

/-- The client shows what was told. -/
structure Faithful (m : Mirror) : Prop where
  tidy : m.session.Tidy
  client : m.client.Ordered
  shows : ∀ path, m.client.get? path = shown (m.session.published.get? path)

theorem faithful_empty : Faithful {} :=
  ⟨⟨Table.ordered_empty, Table.ordered_empty⟩, Table.ordered_empty, fun _ => rfl⟩

section Step

variable {m : Mirror} (hm : m.Faithful)

include hm

/-- **A client that follows what is published shows what is recorded.** -/
theorem Faithful.client_publish (path : Text) :
    (m.step .publish).client.get? path = shown (m.session.current path) := by
  show (follow m.client m.session.publish.2).get? path = _
  rw [get?_follow _ hm.tidy.news, hm.tidy.get?_news]
  by_cases hsame : shown (m.session.current path) = shown (m.session.published.get? path)
  · rw [if_pos hsame]
    exact (hm.shows path).trans hsame.symm
  · rw [if_neg hsame]
    exact shown_getD_shown _

theorem Faithful.step (r : Request) : (m.step r).Faithful := by
  cases r with
  | change c =>
    obtain ⟨htidy, htold⟩ := hm.tidy.change c
    refine ⟨htidy, hm.client, fun path => ?_⟩
    show m.client.get? path = shown ((m.session.change c).1.published.get? path)
    rw [htold]
    exact hm.shows path
  | publish =>
    refine ⟨hm.tidy.publish, ordered_follow hm.client _, fun path => ?_⟩
    exact (hm.client_publish path).trans (hm.tidy.shown_publish path).symm

end Step

theorem faithful_run (requests : List Request) : (run requests).Faithful := by
  -- the calls go on from any faithful mirror
  have hfrom (m : Mirror) (hm : m.Faithful) : (requests.foldl Mirror.step m).Faithful := by
    induction requests generalizing m with
    | nil => exact hm
    | cons r rest ih => exact ih _ (hm.step r)
  exact hfrom {} faithful_empty

/-- **A client that applies what is published sees the state of the session.**  After calls in any order,
let the session publish.  Then the client holds exactly the paths that have offenses, each with its
offenses in order; a path is listed exactly if the client's view of it changes; and if the session
publishes again at once, nothing is listed. -/
theorem client_sees_session (requests : List Request) :
    let before := run requests
    let after := before.step .publish
    after.client = after.session.view ∧
      (∀ path, before.session.publish.2.contains path = true ↔
        after.client.get? path ≠ before.client.get? path) ∧
      after.session.publish.2 = {} := by
  intro before after
  have hbefore : before.Faithful := faithful_run requests
  have hafter : after.Faithful := hbefore.step .publish
  refine ⟨?_, fun path => ?_, ?_⟩
  · refine hafter.client.ext ((hafter.tidy.records.map _).filter _) fun path => ?_
    rw [hafter.tidy.get?_view]
    exact hbefore.client_publish path
  · rw [hbefore.client_publish, hbefore.shows, Table.contains, hbefore.tidy.get?_news]
    split
    · rename_i hsame
      exact iff_of_false nofun fun h => h hsame
    · rename_i hchanged
      exact iff_of_true rfl hchanged
  · refine hafter.tidy.news.ext Table.ordered_empty fun path => ?_
    rw [hafter.tidy.get?_news, if_pos]
    · rfl
    · exact (hbefore.tidy.shown_publish path).symm

end Mirror
end Session
end LiquidLint
