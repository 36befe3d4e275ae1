import Vigil.Metrics.Histogram

/-!
# Text of metrics

A metric family is a help line, a type line, and a line for every sample. A
family without samples is left out. Samples have no order of their own, so the
lines between two comment lines are listed in the order of their text.
-/

namespace Vigil.Metrics

inductive Kind where
  | counter
  | gauge
  | histogram

def Kind.text : Kind → String
  | counter => "counter"
  | gauge => "gauge"
  | histogram => "histogram"

structure Sample where
  suffix : String := ""
  labels : List (String × String) := []
  value : String

structure Family where
  name : String
  help : String
  kind : Kind
  samples : List Sample

/-- Labels as they stand behind a name. Values are written as they are. -/
def labelsText : List (String × String) → String
  | [] => ""
  | ls => "\x7b" ++ String.intercalate "," (ls.map fun l => l.1 ++ "=\"" ++ l.2 ++ "\"") ++ "\x7d"

def Sample.line (name : String) (s : Sample) : String :=
  name ++ s.suffix ++ labelsText s.labels ++ " " ++ s.value

def Family.lines (f : Family) : List String :=
  if f.samples.isEmpty then []
  else
    ("# HELP " ++ f.name ++ " " ++ f.help ++ ".")
      :: ("# TYPE " ++ f.name ++ " " ++ f.kind.text)
      :: f.samples.map (·.line f.name)

def isComment (line : String) : Bool := line.toList.head? == some '#'

/-- Sorts every run of lines between comments; `run` is the one under way. -/
def sortRuns (run : List String) : List String → List String
  | [] => run.mergeSort
  | line :: rest =>
    if isComment line then run.mergeSort ++ line :: sortRuns [] rest
    else sortRuns (line :: run) rest

/-- The text of all families, line by line. -/
def exposition (fs : List Family) : List String :=
  sortRuns [] ((fs.flatMap Family.lines ++ ["# EOF"]).flatMap (·.splitOn "\n"))

/-- The samples of one histogram under some labels. -/
def histogramSamples (labels : List (String × String)) (h : Histogram) : List Sample :=
  let bucket := fun (le : String) (n : Nat) =>
    ({ suffix := "_bucket", labels := ("le", le) :: labels, value := toString n } : Sample)
  { suffix := "_sum", labels, value := Decimal.Style.quick.write h.sum }
    :: { suffix := "_count", labels, value := toString h.count }
    :: bucket "+Inf" h.count
    :: h.cumulative.map fun (bound, n) => bucket (Decimal.Style.quick.write bound) n

end Vigil.Metrics
