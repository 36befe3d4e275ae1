import Vigil.Table

/-!
# The evaluating identity

Rules are evaluated on behalf of a service account of their org, which may query
every data source of that org and do nothing else.
-/

namespace Vigil

/-- Who asks for an evaluation, with the scopes that each permitted action has. -/
structure Identity where
  org : Int
  login : String
  isServiceAccount : Bool
  permissions : Table String (List String)
deriving DecidableEq

namespace Identity

def queryAction : String := "datasources:query"
def everyDatasource : String := "datasources:*"

/-- The identity that evaluates the rules of an org. -/
def evaluating (org : Int) : Identity where
  org := org
  login := "grafana_scheduler"
  isServiceAccount := true
  permissions := (∅ : Table String (List String)).insert queryAction [everyDatasource]

/-- Whether an action is permitted in some scope. -/
def can (i : Identity) (action : String) : Bool := i.permissions.contains action

end Identity

end Vigil
