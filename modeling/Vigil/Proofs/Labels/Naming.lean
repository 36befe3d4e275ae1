import Vigil.Alert
import Vigil.Proofs.Table.Keys

/-!
# What an alert is called

The labels of an instance come from its engine, its rule and its evaluator, and of two for
one name the earlier holds (`Rule.find?_expand`). An alert goes out under the labels of its
instance, so different instances are different alerts, but for one exception: missing data
and failures have a name of their own, and the title of the rule takes the place of whatever
stood under `rulename`. Two instances in such a state are one alert exactly if no other label
tells them apart (`Alert.labels_ofInstance_expand`).
-/

namespace Vigil

/-! ## Precedence -/

namespace Labels

/-- Bindings added in turn, each unless its name is taken: the first one for a name holds. -/
theorem find?_foldl_unlessTaken (es : List (String × String)) (ls : Labels) (n : String) :
    (es.foldl (fun t e => if t.contains e.1 then t else t.insert e.1 e.2) ls).find? n =
      (ls.find? n).or (Table.look n es) := by
  induction es generalizing ls with
  | nil => exact Option.or_none.symm
  | cons e es ih =>
      rw [List.foldl_cons, ih, Table.look]
      by_cases htaken : ls.contains e.1 = true
      · rw [if_pos htaken]
        by_cases hn : compare n e.1 = .eq
        · obtain ⟨v, hv⟩ := Table.contains_iff.1 htaken
          rw [Std.LawfulEqOrd.eq_of_compare hn, hv, Option.some_or, Option.some_or]
        · rw [if_neg hn]
      · rw [if_neg htaken, Table.find?_insert]
        by_cases hn : compare n e.1 = .eq
        · have hnone : ls.find? e.1 = none := Option.not_isSome_iff_eq_none.1 htaken
          rw [if_pos hn, if_pos hn, Std.LawfulEqOrd.eq_of_compare hn, hnone, Option.some_or,
            Option.none_or]
        · rw [if_neg hn, if_neg hn]

@[simp] theorem find?_orElse (ls more : Labels) (n : String) :
    (ls.orElse more).find? n = (ls.find? n).or (more.find? n) :=
  find?_foldl_unlessTaken more.entries ls n

end Labels

namespace Rule

theorem find?_expand (r : Rule) (extra found : Labels) (n : String) :
    (r.expand extra found).find? n =
      ((extra.find? n).or (r.labels.find? n)).or (found.find? n) := by
  rw [expand, Labels.find?_orElse, Labels.find?_orElse]

/-- The title of a rule names every instance of it, whatever the rule's own labels and the
evaluator say. -/
theorem find?_alertName_expand (r : Rule) (folder : Option String) (found : Labels) :
    (r.expand (r.reservedLabels folder) found).find? alertNameLabel = some r.title := by
  have hreserved : (r.reservedLabels folder).find? alertNameLabel = some r.title := by
    have hfolder : compare alertNameLabel folderLabel ≠ .eq := by decide
    cases folder with
    | none => exact (Table.find?_insert _ _ _ _).trans (if_pos Std.ReflCmp.compare_self)
    | some title =>
        show (Table.insert _ folderLabel title).find? alertNameLabel = _
        rw [Table.find?_insert, if_neg hfolder, Table.find?_insert,
          if_pos Std.ReflCmp.compare_self]
  rw [find?_expand, hreserved, Option.some_or, Option.some_or]

end Rule

/-! ## Renaming -/

namespace Alert

/-- The name an alert goes under in place of the title of its rule. -/
def alias? : Status → Option String
  | .noData => some noDataName
  | .error => some errorName
  | _ => none

theorem alertLabels_of_alias {i : Instance} {name : String} (h : alias? i.status = some name) :
    alertLabels i = rename i.labels name := by
  unfold alertLabels
  cases hs : i.status with
  | noData =>
      rw [hs] at h
      exact congrArg (rename i.labels) (Option.some.inj h)
  | error =>
      rw [hs] at h
      exact congrArg (rename i.labels) (Option.some.inj h)
  | normal | alerting | pending => rw [hs] at h; cases h

theorem alertLabels_of_no_alias {i : Instance} (h : alias? i.status = none) :
    alertLabels i = i.labels := by
  unfold alertLabels
  cases hs : i.status with
  | noData | error => rw [hs] at h; cases h
  | normal | alerting | pending => rfl

theorem find?_rename (ls : Labels) (name n : String) :
    (rename ls name).find? n =
      if n = ruleNameLabel then (ls.find? alertNameLabel).or (ls.find? ruleNameLabel)
      else if n = alertNameLabel then some name else ls.find? n := by
  have hne : ruleNameLabel ≠ alertNameLabel := by decide
  unfold rename
  cases ls.find? alertNameLabel with
  | none =>
      dsimp only
      rw [Table.find?_insert]
      simp only [Std.LawfulEqOrd.compare_eq_iff_eq, Option.none_or]
      by_cases hn : n = ruleNameLabel
      · rw [if_pos hn, if_neg (hn ▸ hne), hn]
      · rw [if_neg hn]
  | some title =>
      dsimp only
      rw [Table.find?_insert, Table.find?_insert]
      simp only [Std.LawfulEqOrd.compare_eq_iff_eq, Option.some_or]

/-- Renaming forgets what stood under `rulename` and nothing else. -/
theorem rename_eq_rename_iff {ls ms : Labels} (name : String)
    (hls : ls.contains alertNameLabel = true) (hms : ms.contains alertNameLabel = true) :
    rename ls name = rename ms name ↔ ∀ n, n ≠ ruleNameLabel → ls.find? n = ms.find? n := by
  obtain ⟨title, htitle⟩ := Table.contains_iff.1 hls
  obtain ⟨title', htitle'⟩ := Table.contains_iff.1 hms
  constructor
  · intro hrename n hn
    by_cases hname : n = alertNameLabel
    -- the old names meet under `rulename`
    · have hrule := congrArg (Table.find? · ruleNameLabel) hrename
      rw [find?_rename, find?_rename, if_pos rfl, if_pos rfl, htitle, htitle', Option.some_or,
        Option.some_or] at hrule
      rw [hname, htitle, htitle', hrule]
    · have hother := congrArg (Table.find? · n) hrename
      rw [find?_rename, find?_rename, if_neg hn, if_neg hn, if_neg hname, if_neg hname] at hother
      exact hother
  · intro hsame
    refine Table.ext_find? fun n => ?_
    have hne : alertNameLabel ≠ ruleNameLabel := by decide
    rw [find?_rename, find?_rename, hsame _ hne, htitle', Option.some_or, Option.some_or]
    by_cases hn : n = ruleNameLabel
    · rw [if_pos hn, if_pos hn]
    · rw [if_neg hn, if_neg hn, hsame n hn]

/-! ## Identity -/

/-- **What alerts tell apart.** Two instances of a rule in one state have the same alert
labels exactly if they agree on every label, or on every one but `rulename` if the alert goes
under a name of its own. Then the title of the rule stands under `rulename` and all else is as
in the instance; without such a name all of it is. -/
theorem labels_ofInstance_expand (r : Rule) {i j : Instance} {folder folder' : Option String}
    {found found' : Labels} (url : Option String)
    (hi : i.labels = r.expand (r.reservedLabels folder) found)
    (hj : j.labels = r.expand (r.reservedLabels folder') found') (hstatus : i.status = j.status) :
    ((ofInstance i url).labels = (ofInstance j url).labels ↔
      ∀ n, (n = ruleNameLabel → alias? i.status = none) →
        i.labels.find? n = j.labels.find? n) ∧
    i.labels.find? alertNameLabel = some r.title ∧
    (alias? i.status = none → (ofInstance i url).labels = i.labels) ∧
    ∀ name ∈ alias? i.status, ∀ n, (ofInstance i url).labels.find? n =
      if n = ruleNameLabel then i.labels.find? alertNameLabel
      else if n = alertNameLabel then some name else i.labels.find? n := by
  have htitle : i.labels.find? alertNameLabel = some r.title :=
    hi ▸ r.find?_alertName_expand folder found
  have htitle' : j.labels.find? alertNameLabel = some r.title :=
    hj ▸ r.find?_alertName_expand folder' found'
  refine ⟨?_, htitle, alertLabels_of_no_alias, fun name hname n => ?_⟩
  · show alertLabels i = alertLabels j ↔ _
    cases halias : alias? i.status with
    | none =>
        rw [alertLabels_of_no_alias halias, alertLabels_of_no_alias (hstatus ▸ halias)]
        constructor
        · intro hsame n _
          rw [hsame]
        · intro hsame
          exact Table.ext_find? fun n => hsame n fun _ => rfl
    | some name =>
        rw [alertLabels_of_alias halias, alertLabels_of_alias (hstatus ▸ halias),
          rename_eq_rename_iff name (Table.contains_iff.2 ⟨_, htitle⟩)
            (Table.contains_iff.2 ⟨_, htitle'⟩)]
        constructor
        · intro hsame n hn
          exact hsame n fun hrule => nomatch hn hrule
        · intro hsame n hn
          exact hsame n fun hrule => absurd hrule hn
  · show (alertLabels i).find? n = _
    rw [alertLabels_of_alias hname, find?_rename, htitle, Option.some_or]

/-- A rule without data, for one series. -/
def silent (found : Labels) : Instance :=
  { Instance.new { title := "disk" } (Rule.expand { title := "disk" }
      (Rule.reservedLabels { title := "disk" } none) found) 1 with status := .noData }

theorem labels_ofInstance_expand_hosts :
    (silent ((∅ : Labels).insert "host" "a")).status =
        (silent ((∅ : Labels).insert "host" "b")).status ∧
      (ofInstance (silent ((∅ : Labels).insert "host" "a")) none).labels ≠
        (ofInstance (silent ((∅ : Labels).insert "host" "b")) none).labels ∧
      (ofInstance (silent ((∅ : Labels).insert "host" "a")) none).labels.find? ruleNameLabel =
        some "disk" := by
  obtain ⟨hsame, htitle, -, hrenamed⟩ := labels_ofInstance_expand { title := "disk" }
    (i := silent ((∅ : Labels).insert "host" "a")) (j := silent ((∅ : Labels).insert "host" "b"))
    none rfl rfl rfl
  refine ⟨rfl, fun hlabels => ?_, ?_⟩
  · have hhost := hsame.1 hlabels "host" fun hname => absurd hname (by decide)
    exact absurd hhost (by decide)
  · rw [hrenamed noDataName rfl, if_pos rfl, htitle]

/-- **One name is not kept.** Two series that only `rulename` tells apart are one alert when
they have no data. -/
theorem silent_rulename :
    (silent ((∅ : Labels).insert "rulename" "a")).labels ≠
        (silent ((∅ : Labels).insert "rulename" "b")).labels ∧
      (ofInstance (silent ((∅ : Labels).insert "rulename" "a")) none).labels =
        (ofInstance (silent ((∅ : Labels).insert "rulename" "b")) none).labels ∧
      (ofInstance (silent ((∅ : Labels).insert "rulename" "a")) none).labels.find? "rulename" =
        some "disk" := by
  decide

end Alert

end Vigil
