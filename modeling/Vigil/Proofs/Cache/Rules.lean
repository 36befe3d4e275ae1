import Vigil.Round

/-!
# The instances of one rule

A rule without instances has no map in the cache, and an org without rules none
either. Reading does not show that: what was written for a rule is what is read
for it (`Cache.ofRule_setRule`), and what was read for any other rule still is
(`Cache.ofRule_setRule_of_ne`). Noting that instances were sent writes that to them and
nothing else (`Cache.get?_markSent`).
-/

namespace Vigil

namespace Table

variable {κ : Type u} {α : Type v} [Ord κ]

theorem isEmpty_iff {t : Table κ α} : t.isEmpty = true ↔ t = ∅ := by
  constructor
  · intro h
    cases t with
    | mk es hs =>
        obtain rfl : es = [] := List.isEmpty_iff.1 h
        rfl
  · intro h
    rw [h]
    rfl

theorem mem_values_iff [Std.LawfulEqOrd κ] {t : Table κ α} {v : α} :
    v ∈ t.values ↔ ∃ k, t.find? k = some v := by
  simp [values, find?_eq_some_iff]

end Table

namespace Cache

/-- An org reads the same whether its last rule leaves an empty map or none. -/
theorem ofOrg_mk (c : Cache) (org : Int) (rules : Table String RuleInstances) :
    (⟨if rules.isEmpty then c.orgs.erase org else c.orgs.insert org rules⟩ : Cache).ofOrg org =
      rules := by
  by_cases h : rules.isEmpty = true
  · rw [if_pos h, ofOrg, Table.isEmpty_iff.1 h]
    simp
  · rw [if_neg h, ofOrg]
    simp

theorem ofRule_setRule (c : Cache) (k : RuleKey) (rs : RuleInstances) :
    (c.setRule k rs).ofRule k = rs := by
  have horg : (c.setRule k rs).ofOrg k.org =
      if rs.isEmpty then (c.ofOrg k.org).erase k.uid else (c.ofOrg k.org).insert k.uid rs :=
    ofOrg_mk c k.org _
  rw [ofRule, horg]
  by_cases hrs : rs.isEmpty = true
  · rw [if_pos hrs, Table.isEmpty_iff.1 hrs]
    simp
  · rw [if_neg hrs]
    simp

theorem ofOrg_mk_of_ne (c : Cache) {org other : Int} (rules : Table String RuleInstances)
    (h : other ≠ org) :
    (⟨if rules.isEmpty then c.orgs.erase org else c.orgs.insert org rules⟩ : Cache).ofOrg other =
      c.ofOrg other := by
  by_cases hrules : rules.isEmpty = true
  · rw [if_pos hrules, ofOrg, Table.find?_erase, if_neg (by simpa using h)]
    rfl
  · rw [if_neg hrules, ofOrg, Table.find?_insert, if_neg (by simpa using h)]
    rfl

theorem ofRule_setRule_of_ne (c : Cache) {k other : RuleKey} (rs : RuleInstances)
    (h : other ≠ k) : (c.setRule k rs).ofRule other = c.ofRule other := by
  by_cases horg : other.org = k.org
  · have huid : other.uid ≠ k.uid := fun huid => h (by cases other; cases k; simp_all)
    have hofOrg : (c.setRule k rs).ofOrg k.org =
        if rs.isEmpty then (c.ofOrg k.org).erase k.uid else (c.ofOrg k.org).insert k.uid rs :=
      ofOrg_mk c k.org _
    rw [ofRule, ofRule, horg, hofOrg]
    by_cases hrs : rs.isEmpty = true
    · rw [if_pos hrs, Table.find?_erase, if_neg (by simpa using huid)]
    · rw [if_neg hrs, Table.find?_insert, if_neg (by simpa using huid)]
  · have hofOrg : (c.setRule k rs).ofOrg other.org = c.ofOrg other.org := ofOrg_mk_of_ne c _ horg
    rw [ofRule, ofRule, hofOrg]

theorem get?_setRule (c : Cache) (k other : RuleKey) (rs : RuleInstances) (id : String) :
    (c.setRule k rs).get? other id = if other = k then rs.find? id else c.get? other id := by
  by_cases h : other = k
  · rw [if_pos h, h, get?, ofRule_setRule]
  · rw [if_neg h, get?, ofRule_setRule_of_ne c rs h]
    rfl

/-! ## Instances that were sent -/

end Cache

/-- When the instance under `id` was last sent, after the batch `sent`. -/
def Instance.sentIn (sent : List Instance) (k : RuleKey) (id : String) (before : Option Moment) :
    Option Moment :=
  sent.foldl (fun t i => if i.ruleKey = k ∧ i.id = id then some i.lastEvaluation else t) before

namespace Cache

/-- Notes that `sent` went out, if it is still there. -/
def noteSent (sent : Instance) (rs : RuleInstances) : RuleInstances :=
  match rs.find? sent.id with
  | some cached => rs.insert sent.id { cached with sentAt := some sent.lastEvaluation }
  | none => rs

theorem markSent_cons (c : Cache) (j : Instance) (sent : List Instance) :
    c.markSent (j :: sent) =
      (c.setRule j.ruleKey (noteSent j (c.ofRule j.ruleKey))).markSent sent := by
  unfold markSent noteSent withRule
  rw [List.foldl_cons]
  dsimp only
  cases (c.ofRule j.ruleKey).find? j.id with
  | some cached => rfl
  | none => rfl

theorem find?_noteSent (sent : Instance) (rs : RuleInstances) (id : String) :
    (noteSent sent rs).find? id = (rs.find? id).map fun i =>
      { i with sentAt := if sent.id = id then some sent.lastEvaluation else i.sentAt } := by
  unfold noteSent
  cases hcached : rs.find? sent.id with
  | some cached =>
      dsimp only
      rw [Table.find?_insert]
      by_cases hid : sent.id = id
      · rw [if_pos (by simp [hid]), ← hid, hcached, Option.map_some, if_pos rfl]
      · rw [if_neg (by simpa using fun h => hid h.symm)]
        simp [hid]
  | none =>
      by_cases hid : sent.id = id
      · rw [← hid, hcached]
        rfl
      · simp [hid]

theorem get?_markSent (c : Cache) (sent : List Instance) (k : RuleKey) (id : String) :
    (c.markSent sent).get? k id =
      (c.get? k id).map fun i => { i with sentAt := Instance.sentIn sent k id i.sentAt } := by
  induction sent generalizing c with
  | nil => exact Option.map_id'.symm
  | cons j sent ih =>
      rw [markSent_cons, ih, get?_setRule]
      by_cases hk : k = j.ruleKey
      · rw [if_pos hk, find?_noteSent, Option.map_map, hk]
        simp only [Instance.sentIn, List.foldl_cons, true_and]
        rfl
      · rw [if_neg hk]
        have hother : ¬ (j.ruleKey = k ∧ j.id = id) := fun h => hk h.1.symm
        simp only [Instance.sentIn, List.foldl_cons, if_neg hother]

end Cache

end Vigil
