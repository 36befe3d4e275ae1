import Mathlib.Data.List.Nodup
import Vigil.Proofs.Round.LabelSets
import Vigil.Proofs.Table.Keys

/-!
# The names of cached instances

An instance says itself where it belongs: it names its rule, and its identity is the digest
of its labels. The cache files it there (`Cache.Named`), and no round changes a name, be it
one that fails (`Cache.named_round`). So the instances of a cache, listed in one row, all
have different addresses (`Cache.nodup_addresses`). A round drops only instances that it
reports as stale (`Cache.kept_or_stale`).
-/

namespace Vigil

/-- Where an instance is filed: its rule and its identity. -/
abbrev Address := RuleKey × String

namespace Instance

def address (i : Instance) : Address := (i.ruleKey, i.id)

/-- The instance names the rule and the identity, and its labels have that digest. -/
structure NamedAs (i : Instance) (k : RuleKey) (id : String) : Prop where
  ruleKey : i.ruleKey = k
  labels : i.labels.id = id
  id : i.id = id

/-- A verdict changes no name, whatever comes of it. -/
theorem NamedAs.apply {i : Instance} {k : RuleKey} {id : String} (h : i.NamedAs k id) (r : Rule)
    (v : Verdict) (p : TransitionPolicy) : (i.apply r v p).1.NamedAs k id := by
  unfold Instance.apply
  split
  · exact h
  dsimp only
  split
  · exact ⟨h.ruleKey, h.labels, h.id⟩
  · exact ⟨h.ruleKey, h.labels, h.id⟩

theorem namedAs_new (r : Rule) (labels : Labels) (history : Nat) :
    (new r labels history).NamedAs r.key labels.id := ⟨rfl, rfl, rfl⟩

end Instance

/-- Every instance is filed under its names. -/
def RuleInstances.Named (rs : RuleInstances) (k : RuleKey) : Prop :=
  ∀ id i, rs.find? id = some i → i.NamedAs k id

theorem RuleInstances.Named.insert {rs : RuleInstances} {k : RuleKey} (h : rs.Named k)
    {id : String} {i : Instance} (hi : i.NamedAs k id) :
    RuleInstances.Named (Table.insert rs id i) k := by
  intro id' i' hi'
  rw [Table.find?_insert] at hi'
  split at hi'
  · rename_i hid
    obtain rfl := Std.LawfulEqOrd.eq_of_compare hid
    obtain rfl := Option.some.inj hi'
    exact hi
  · exact h id' i' hi'

/-! ## A round -/

namespace Sweep

variable {r : Rule} {extra : Labels} {p : TransitionPolicy} {history : Nat}

/-- A verdict files nothing, or the instance that it moved, even if it fails the sweep. -/
theorem instances_take (s : Sweep) (v : Verdict) :
    (take r extra p history s v).instances = s.instances ∨
      ∃ i, (s.instances.find? (r.idOf extra v) = some i ∨
          i = .new r (r.expand extra v.labels) history) ∧
        (take r extra p history s v).instances =
          s.instances.insert (r.idOf extra v) (i.apply r v p).1 := by
  unfold take
  split
  · exact Or.inl rfl
  dsimp only
  split
  · exact Or.inl rfl
  split
  · rename_i i hi
    refine Or.inr ⟨i, ?_, ?_⟩
    · rcases Option.or_eq_some_iff.1 hi with hknown | ⟨-, hnew⟩
      · exact Or.inl hknown
      · unfold Instance.new? at hnew
        rw [Option.ite_none_right_eq_some] at hnew
        exact Or.inr (Option.some.inj hnew.2).symm
    · unfold settle
      dsimp only
      split <;> rfl
  · exact Or.inl rfl

/-- A sweep changes no name and loses no instance, even if it fails. -/
theorem named_run {rs : RuleInstances} (h : rs.Named r.key) (vs : List Verdict) :
    RuleInstances.Named (run r extra p history rs vs).instances r.key ∧
      ∀ id, rs.contains id = true →
        (run r extra p history rs vs).instances.contains id = true := by
  induction vs using List.reverseRecOn with
  | nil => exact ⟨h, fun id hid => hid⟩
  | append_singleton vs v ih =>
      obtain ⟨hnamed, hkept⟩ := ih
      rw [run_snoc]
      rcases (run r extra p history rs vs).instances_take v with hsame | ⟨i, hi, hmoved⟩
      · rw [hsame]
        exact ⟨hnamed, hkept⟩
      · have hnames : i.NamedAs r.key (r.idOf extra v) := by
          rcases hi with hknown | rfl
          · exact hnamed _ i hknown
          · exact Instance.namedAs_new r _ history
        rw [hmoved]
        refine ⟨hnamed.insert (hnames.apply r v p), fun id hid => ?_⟩
        rw [Table.contains, Table.find?_insert]
        split
        · rfl
        · exact hkept id hid

end Sweep

namespace Cache

/-- Every instance is filed under its names. -/
def Named (c : Cache) : Prop := ∀ k, (c.ofRule k).Named k

variable {c : Cache} {settings : StateSettings} {now : Moment} {r : Rule} {vs : List Verdict}
  {extra : Labels}

theorem named_empty : ({} : Cache).Named := by
  intro k id i hi
  cases (show none = some i from hi)

theorem named_setRule (h : c.Named) {k : RuleKey} {rs : RuleInstances} (hrs : rs.Named k) :
    (c.setRule k rs).Named := by
  intro q
  by_cases hq : q = k
  · rw [hq, ofRule_setRule]
    exact hrs
  · rw [ofRule_setRule_of_ne c rs hq]
    exact h q

theorem named_markSent (h : c.Named) (sent : List Instance) : (c.markSent sent).Named := by
  intro k id i hi
  obtain ⟨j, hj, rfl⟩ := Option.map_eq_some_iff.1 ((c.get?_markSent sent k id).symm.trans hi)
  have hnames := h k id j hj
  exact ⟨hnames.ruleKey, hnames.labels, hnames.id⟩

theorem named_removeRule (h : c.Named) (k : RuleKey) : (c.removeRule k).2.Named :=
  named_setRule h fun id i hi => by cases (show none = some i from hi)

/-- Writing the instances of a rule leaves those of the others. -/
theorem isSome_get?_setRule {k : RuleKey} {rs : RuleInstances} {gone : Instance → Prop}
    (hrs : ∀ id, (c.get? k id).isSome = true →
      rs.contains id = true ∨ ∃ i, gone i ∧ i.NamedAs k id)
    {q : RuleKey} {id : String} (hid : (c.get? q id).isSome = true) :
    ((c.setRule k rs).get? q id).isSome = true ∨ ∃ i, gone i ∧ i.NamedAs q id := by
  rw [get?_setRule]
  split
  · rename_i hq
    exact hq ▸ hrs id (hq ▸ hid)
  · exact Or.inl hid

/-- **What a round files.** The instances stay under their names. One that was there is
there afterwards, unless the round reports it as stale. -/
theorem round_frame (h : c.Named) (settings : StateSettings) (now : Moment) (r : Rule)
    (vs : List Verdict) (extra : Labels) :
    (c.round settings now r vs extra).2.Named ∧
      ∀ k id, (c.get? k id).isSome = true →
        ((c.round settings now r vs extra).2.get? k id).isSome = true ∨
          ∃ i, (∃ rd, (c.round settings now r vs extra).1 = some rd ∧ i ∈ rd.stale) ∧
            i.NamedAs k id := by
  cases hp : settings.policy? with
  | none =>
      unfold round
      rw [hp]
      exact ⟨h, fun k id hid => Or.inl hid⟩
  | some p =>
  obtain ⟨hnamed, hkept⟩ : RuleInstances.Named
      (Sweep.run r extra p (settings.historyFor r) (c.ofRule r.key) vs).instances r.key ∧ _ :=
    Sweep.named_run (h r.key) vs
  cases hs : (Sweep.run r extra p (settings.historyFor r) (c.ofRule r.key) vs).failed with
  | true =>
      rw [round_of_failed hp rfl hs]
      exact ⟨named_setRule h hnamed, fun k id hid =>
        isSome_get?_setRule (fun id hid => Or.inl (hkept id hid)) hid⟩
  | false =>
      rw [round_of_swept hp rfl hs]
      cases hsplit : splitStale? now r settings.staleMultiplier
          (Sweep.run r extra p (settings.historyFor r) (c.ofRule r.key) vs).seen
          (Sweep.run r extra p (settings.historyFor r) (c.ofRule r.key) vs).instances with
      | none =>
          exact ⟨named_setRule h hnamed, fun k id hid =>
            isSome_get?_setRule (fun id hid => Or.inl (hkept id hid)) hid⟩
      | some parts =>
          obtain ⟨stale, kept⟩ := parts
          have hfind := find?_of_splitStale? hsplit
          refine ⟨named_setRule h fun id i hi => ?_, fun k id hid =>
            isSome_get?_setRule (fun id hid => ?_) hid⟩
          · exact hnamed id i (Option.filter_eq_some_iff.1 ((hfind id).symm.trans hi)).1
          · obtain ⟨i, hi⟩ := Table.contains_iff.1 (hkept id hid)
            -- what is not kept is split off
            cases hgone : kept.find? id with
            | some j => exact Or.inl (Table.contains_iff.2 ⟨j, hgone⟩)
            | none =>
                rw [hfind, hi, Option.filter_some] at hgone
                split at hgone
                · cases hgone
                rename_i hno
                rw [Bool.not_eq_true, Bool.or_eq_false_iff, bne_eq_false_iff_eq] at hno
                exact Or.inr ⟨i, ⟨_, rfl, (mem_of_splitStale? hsplit i).2 ⟨id, hi, hno⟩⟩,
                  hnamed id i hi⟩

theorem get?_set (c : Cache) (i : Instance) (k : RuleKey) (id : String) :
    (c.set i).get? k id = if (k, id) = i.address then some i else c.get? k id := by
  have hset : c.set i = c.setRule i.ruleKey ((c.ofRule i.ruleKey).insert i.id i) := rfl
  rw [hset, get?_setRule, Table.find?_insert]
  unfold Instance.address
  by_cases hk : k = i.ruleKey
  · subst hk
    by_cases hid : id = i.id
    · simp [hid]
    · rw [if_pos rfl, if_neg (by simpa using hid), if_neg (by simp [hid])]
      rfl
  · rw [if_neg hk, if_neg (by simp [hk])]

/-! ## All instances in one row -/

/-- An instance is found where every level above it is. -/
theorem get?_eq_some_iff {k : RuleKey} {id : String} {i : Instance} :
    c.get? k id = some i ↔ ∃ rules, c.orgs.find? k.org = some rules ∧
      ∃ rs, rules.find? k.uid = some rs ∧ rs.find? id = some i := by
  unfold get? ofRule ofOrg
  constructor
  · intro hi
    cases hrules : c.orgs.find? k.org with
    | none =>
        rw [hrules] at hi
        cases (show none = some i from hi)
    | some rules =>
        rw [hrules] at hi
        cases hrs : rules.find? k.uid with
        | none =>
            simp only [Option.getD_some, hrs] at hi
            cases (show none = some i from hi)
        | some rs =>
            simp only [Option.getD_some, hrs] at hi
            exact ⟨rules, rfl, rs, hrs, hi⟩
  · rintro ⟨rules, hrules, rs, hrs, hi⟩
    simp only [hrules, Option.getD_some, hrs, hi]

theorem mem_snapshot_iff {i : Instance} : i ∈ c.snapshot ↔ ∃ k id, c.get? k id = some i := by
  unfold snapshot
  simp only [List.mem_flatMap, Table.mem_values_iff]
  constructor
  · rintro ⟨rules, ⟨org, hrules⟩, rs, ⟨uid, hrs⟩, id, hi⟩
    exact ⟨⟨org, uid⟩, id, get?_eq_some_iff.2 ⟨rules, hrules, rs, hrs, hi⟩⟩
  · rintro ⟨⟨org, uid⟩, id, hi⟩
    obtain ⟨rules, hrules, rs, hrs, hi⟩ := get?_eq_some_iff.1 hi
    exact ⟨rules, ⟨org, hrules⟩, rs, ⟨uid, hrs⟩, id, hi⟩

end Cache

/-- Names differ that differ below each key and tell the key. -/
theorem nodup_flatMap_of_key {l : List ι} {below : ι → List α} {name : α → γ} (key : ι → κ)
    (keyOf : γ → κ) (hl : (l.map key).Nodup) (hbelow : ∀ x ∈ l, ((below x).map name).Nodup)
    (hkey : ∀ x ∈ l, ∀ a ∈ below x, keyOf (name a) = key x) :
    ((l.flatMap below).map name).Nodup := by
  rw [List.map_flatMap, List.nodup_flatMap]
  refine ⟨hbelow, List.Pairwise.imp_of_mem ?_ (List.pairwise_map.1 hl)⟩
  intro x y hx hy hne n hnx hny
  obtain ⟨a, ha, rfl⟩ := List.mem_map.1 hnx
  obtain ⟨b, hb, hab⟩ := List.mem_map.1 hny
  have hyb := hkey y hy b hb
  rw [hab] at hyb
  exact hne ((hkey x hx a ha).symm.trans hyb)

namespace Table

variable {κ : Type u} {α : Type v} {β : Type w} {γ : Type x} [Ord κ] [Std.LawfulEqOrd κ]

theorem nodup_map_values {t : Table κ α} {name : α → γ} (keyOf : γ → κ)
    (hkey : ∀ k v, t.find? k = some v → keyOf (name v) = k) : (t.values.map name).Nodup := by
  refine List.Nodup.of_map keyOf ?_
  have hkeys : (t.values.map name).map keyOf = t.keys := by
    unfold values keys
    rw [List.map_map, List.map_map]
    exact List.map_congr_left fun e he => hkey e.1 e.2 (find?_eq_some_iff.2 he)
  rw [hkeys]
  exact t.nodup_keys

theorem nodup_flatMap_values {t : Table κ β} {below : β → List α} {name : α → γ} (keyOf : γ → κ)
    (hbelow : ∀ k v, t.find? k = some v → ((below v).map name).Nodup)
    (hkey : ∀ k v, t.find? k = some v → ∀ a ∈ below v, keyOf (name a) = k) :
    ((t.values.flatMap below).map name).Nodup := by
  unfold values
  rw [List.flatMap_map]
  exact nodup_flatMap_of_key Prod.fst keyOf t.nodup_keys
    (fun e he => hbelow e.1 e.2 (find?_eq_some_iff.2 he))
    fun e he => hkey e.1 e.2 (find?_eq_some_iff.2 he)

end Table

namespace Cache

/-- **One address each.** No two instances of a cache have the same rule and identity. -/
theorem nodup_addresses {c : Cache} (h : c.Named) : (c.snapshot.map Instance.address).Nodup := by
  have hnamed : ∀ org rules, c.orgs.find? org = some rules → ∀ uid rs, rules.find? uid = some rs →
      ∀ id i, rs.find? id = some i → i.NamedAs ⟨org, uid⟩ id := by
    intro org rules hrules uid rs hrs id i hi
    exact h ⟨org, uid⟩ id i (get?_eq_some_iff.2 ⟨rules, hrules, rs, hrs, hi⟩)
  refine Table.nodup_flatMap_values (fun a => a.1.org) (fun org rules hrules => ?_) ?_
  · refine Table.nodup_flatMap_values (fun a => a.1.uid) (fun uid rs hrs => ?_) ?_
    · exact Table.nodup_map_values Prod.snd fun id i hi =>
        (hnamed org rules hrules uid rs hrs id i hi).id
    · intro uid rs hrs i hi
      obtain ⟨id, hi⟩ := Table.mem_values_iff.1 hi
      exact congrArg RuleKey.uid (hnamed org rules hrules uid rs hrs id i hi).ruleKey
  · intro org rules hrules i hi
    obtain ⟨rs, hrs, hi⟩ := List.mem_flatMap.1 hi
    obtain ⟨uid, hrs⟩ := Table.mem_values_iff.1 hrs
    obtain ⟨id, hi⟩ := Table.mem_values_iff.1 hi
    exact congrArg RuleKey.org (hnamed org rules hrules uid rs hrs id i hi).ruleKey

end Cache

end Vigil
