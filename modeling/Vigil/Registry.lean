import Vigil.Rule

/-!
# Registries

A registry knows the live entry of each rule. Entries are numbered in the order
they were made and stay where they are when their rule is forgotten; a rule that
comes back gets a new one. Beside it stands the latest snapshot of the rules to
run.
-/

namespace Vigil

structure Registry (α : Type u) where
  entries : List α := []
  live : Table RuleKey Nat := ∅

namespace Registry

instance : Inhabited (Registry α) := ⟨{}⟩

/-- The number of the live entry for `k`. -/
def find? (g : Registry α) (k : RuleKey) : Option Nat := g.live.find? k

/-- The live entry for `k`, made now if there is none, and whether it was. -/
def getOrCreate (g : Registry α) (k : RuleKey) (make : RuleKey → α) : (Nat × Bool) × Registry α :=
  match g.live.find? k with
  | some n => ((n, false), g)
  | none =>
    ((g.entries.length, true),
      { entries := g.entries ++ [make k], live := g.live.insert k g.entries.length })

/-- Forgets the live entry for `k` and returns its number. -/
def remove (g : Registry α) (k : RuleKey) : Option Nat × Registry α :=
  (g.live.find? k, { g with live := g.live.erase k })

def modify (g : Registry α) (n : Nat) (f : α → α) : Registry α :=
  { g with entries := g.entries.modify n f }

def keys (g : Registry α) : List RuleKey := g.live.keys

def size (g : Registry α) : Nat := g.live.size

end Registry

/-- The rules to run, with the titles of their folders by UID. -/
structure RuleSet where
  rules : Table RuleKey Rule := ∅
  folders : Table String String := ∅
deriving DecidableEq, Inhabited

namespace RuleSet

/-- The snapshot of a listing; of two rules with one key the later one holds. -/
def ofListing (rules : List Rule) (folders : Table String String) : RuleSet :=
  ⟨.ofList (rules.map fun r => (r.key, r)), folders⟩

/-- The rules in order of key. -/
def all (s : RuleSet) : List Rule := s.rules.values

def remove (s : RuleSet) (k : RuleKey) : RuleSet := { s with rules := s.rules.erase k }

def size (s : RuleSet) : Nat := s.rules.size

end RuleSet

end Vigil
