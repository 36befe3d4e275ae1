/-!
# Engine errors

Every way in which the engine or one of its collaborators can fail, with the
text shown for it and the name of its kind.
-/

namespace Vigil

inductive EngineError where
  | ruleStore (detail : String)
  | evaluatorBuild (detail : String)
  | evaluation (detail : String)
  | instanceStore (detail : String)
  | configuration (detail : String)
  /-- An interval that is no multiple of the base interval, both in seconds. -/
  | invalidInterval (interval base : Int)
  | routineStopped
  | internal (detail : String)
deriving DecidableEq, Repr, Inhabited

def EngineError.message : EngineError → String
  | ruleStore d => "Rule store error: " ++ d
  | evaluatorBuild d => "Evaluator construction failed: " ++ d
  | evaluation d => "Evaluation failed: " ++ d
  | instanceStore d => "Instance store error: " ++ d
  | configuration d => "Configuration error: " ++ d
  | invalidInterval interval base =>
    "Invalid interval " ++ toString interval ++ "s, must be a multiple of the base interval "
      ++ toString base ++ "s"
  | routineStopped => "Rule routine stopped"
  | internal d => "Internal error: " ++ d

def EngineError.kind : EngineError → String
  | ruleStore _ => "RuleStoreError"
  | evaluatorBuild _ => "EvaluatorBuildError"
  | evaluation _ => "EvaluationError"
  | instanceStore _ => "InstanceStoreError"
  | configuration _ => "ConfigurationError"
  | invalidInterval _ _ => "InvalidInterval"
  | routineStopped => "RoutineStopped"
  | internal _ => "InternalError"

/-- The error of a kind that has a detail and nothing else. -/
def EngineError.ofDetail? (kind detail : String) : Option EngineError :=
  [ruleStore, evaluatorBuild, evaluation, instanceStore, configuration, internal].findSome? fun e =>
    if (e detail).kind = kind then some (e detail) else none

end Vigil
