import Vigil.Instance

/-!
# The instance cache

Live instances by org, then rule UID, then identity. No inner map is ever empty:
a rule whose last instance goes leaves no trace, nor does an org whose last rule
goes.
-/

namespace Vigil

/-- The instances of one rule by identity. -/
abbrev RuleInstances := Table String Instance

structure Cache where
  orgs : Table Int (Table String RuleInstances) := ∅

namespace Cache

instance : Inhabited Cache := ⟨{}⟩

def ofOrg (c : Cache) (org : Int) : Table String RuleInstances :=
  (c.orgs.find? org).getD ∅

def ofRule (c : Cache) (k : RuleKey) : RuleInstances :=
  ((c.ofOrg k.org).find? k.uid).getD ∅

/-- Makes `rs` the instances of one rule, without leaving an empty map. -/
def setRule (c : Cache) (k : RuleKey) (rs : RuleInstances) : Cache :=
  let org := c.ofOrg k.org
  let org := if rs.isEmpty then org.erase k.uid else org.insert k.uid rs
  ⟨if org.isEmpty then c.orgs.erase k.org else c.orgs.insert k.org org⟩

/-- Runs `f` on the instances of one rule and keeps what it leaves. -/
def withRule (c : Cache) (k : RuleKey) (f : RuleInstances → α × RuleInstances) : α × Cache :=
  let (a, rs) := f (c.ofRule k)
  (a, c.setRule k rs)

def set (c : Cache) (i : Instance) : Cache :=
  (c.withRule i.ruleKey fun rs => ((), rs.insert i.id i)).2

def get? (c : Cache) (k : RuleKey) (id : String) : Option Instance :=
  (c.ofRule k).find? id

/-- Every instance of one org, by rule and identity. -/
def inOrg (c : Cache) (org : Int) : List Instance :=
  (c.ofOrg org).values.flatMap Table.values

/-- Every instance, by org, rule and identity. -/
def snapshot (c : Cache) : List Instance :=
  c.orgs.values.flatMap fun org => org.values.flatMap Table.values

/-- Drops one rule and returns its instances. -/
def removeRule (c : Cache) (k : RuleKey) : List Instance × Cache :=
  c.withRule k fun rs => (rs.values, ∅)

def size (c : Cache) : Nat :=
  c.orgs.values.foldl (fun n org => org.values.foldl (fun n rs => n + rs.size) n) 0

def isEmpty (c : Cache) : Bool := c.size == 0

/-- How many instances are in each state; a state with none is left out. -/
def countByStatus (c : Cache) : List (Status × Nat) :=
  (Status.all.map fun s => (s, c.snapshot.countP (·.status == s))).filter (·.2 != 0)

end Cache

end Vigil
