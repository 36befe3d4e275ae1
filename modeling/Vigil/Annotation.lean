import Vigil.Instance

/-!
# Annotations

An annotation records one change of an instance's standing against the
dashboard panel of its rule.
-/

namespace Vigil

structure Annotation where
  org : Int
  ruleUid : String
  dashboardUid : Option String
  panelId : Option Int
  previous : String
  current : String
  text : String
  /-- Evaluation time in milliseconds. -/
  epochMillis : Int
deriving DecidableEq, Repr

/-- The annotation for a change at `t` of the instance with these labels. -/
def Annotation.new (r : Rule) (labels : Labels) (t : Moment) (change : Transition) : Annotation where
  org := r.org
  ruleUid := r.uid
  dashboardUid := r.dashboardUid
  panelId := r.panelId
  previous := change.previous.text
  current := change.current.text
  text := r.title ++ " \x7b" ++ labels.visible.text ++ "\x7d - " ++ change.current.text
  epochMillis := t.millis

/-- The annotation for an instance that goes away while it is alerting. -/
def Annotation.closing (r : Rule) (i : Instance) (now : Moment) : Annotation :=
  .new r i.labels now ⟨i.standing, .normal⟩

namespace Annotation

/-- The annotation tells of this change, at `t`, of the instance of a rule with these labels. -/
structure Says (a : Annotation) (r : Rule) (labels : Labels) (t : Moment) (change : Transition) :
    Prop where
  ruleKey : (⟨a.org, a.ruleUid⟩ : RuleKey) = r.key
  panel : a.dashboardUid = r.dashboardUid ∧ a.panelId = r.panelId
  previous : a.previous = change.previous.text
  current : a.current = change.current.text
  text : a.text = r.title ++ " \x7b" ++ labels.visible.text ++ "\x7d - " ++ a.current
  epochMillis : a.epochMillis = t.millis

theorem says_new (r : Rule) (labels : Labels) (t : Moment) (change : Transition) :
    (new r labels t change).Says r labels t change :=
  ⟨rfl, ⟨rfl, rfl⟩, rfl, rfl, rfl, rfl⟩

theorem says_closing (r : Rule) (i : Instance) (now : Moment) :
    (closing r i now).Says r i.labels now ⟨i.standing, .normal⟩ :=
  says_new r i.labels now _

end Annotation

end Vigil
