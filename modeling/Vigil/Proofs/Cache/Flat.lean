import Mathlib.Algebra.GroupWithZero.Nat
import Vigil.Proofs.Cache.Names

/-!
# The cache as one table

The cache keeps its instances on three levels, which come and go with them. Seen from outside
it is one table by rule and identity (`Cache.flat`). A call does to the levels what it plainly
does to the table (`CacheCall.onFlat_flat`), and leaves no level empty
(`CacheCall.pruned_onCache`). So after any calls all that is read of the cache is read of the
table, each instance once (`Cache.shows_of_run`).
-/

namespace Vigil

/-- By rule, then by identity. -/
instance : Ord Address := lexOrd

theorem Address.compare_eq_then (a b : Address) :
    compare a b = (compare a.1 b.1).then (compare a.2 b.2) := rfl

theorem Address.compare_of_rule_lt {a b : Address} (h : compare a.1 b.1 = .lt) :
    compare a b = .lt := by
  rw [compare_eq_then, h]
  rfl

theorem Address.compare_of_rule_eq {a b : Address} (h : a.1 = b.1) :
    compare a b = compare a.2 b.2 := by
  rw [compare_eq_then, h, Std.compare_self]
  rfl

/-! ## The table -/

/-- The instances of all rules in one table. -/
abbrev FlatCache := Table Address Instance

namespace FlatCache

/-- The instances of one rule. -/
def ofRule (t : FlatCache) (k : RuleKey) : RuleInstances where
  entries := (t.entries.filter (·.1.1 == k)).map fun e => (e.1.2, e.2)
  sorted := by
    refine List.pairwise_map.2 ((t.sorted.filter _).imp_of_mem fun {a b} ha hb hab => ?_)
    have hrule : a.1.1 = b.1.1 := by
      rw [beq_iff_eq.1 (List.mem_filter.1 ha).2, beq_iff_eq.1 (List.mem_filter.1 hb).2]
    rwa [Address.compare_of_rule_eq hrule] at hab

/-- The others of `t`, and those of `rs` under the rule. -/
def setRule (t : FlatCache) (k : RuleKey) (rs : RuleInstances) : FlatCache :=
  .ofList ((t.filter fun a _ => a.1 != k).entries ++ rs.entries.map fun e => ((k, e.1), e.2))

/-- Runs `f` on the instances of one rule and keeps what it leaves. -/
def withRule (t : FlatCache) (k : RuleKey) (f : RuleInstances → α × RuleInstances) :
    α × FlatCache :=
  let (a, rs) := f (t.ofRule k)
  (a, t.setRule k rs)

def set (t : FlatCache) (i : Instance) : FlatCache := t.insert i.address i

/-- Takes out the entries of one rule and returns what they hold. -/
def removeRule (t : FlatCache) (k : RuleKey) : List Instance × FlatCache :=
  ((t.filter fun a _ => a.1 == k).values, t.filter fun a _ => a.1 != k)

variable (t : FlatCache) (k : RuleKey)

theorem find?_ofRule (id : String) : (t.ofRule k).find? id = t.find? (k, id) := by
  refine Option.ext fun i => ?_
  rw [Table.find?_eq_some_iff, Table.find?_eq_some_iff]
  unfold ofRule
  simp only [List.mem_map, List.mem_filter, beq_iff_eq]
  constructor
  · rintro ⟨⟨⟨_, _⟩, _⟩, ⟨he, rfl⟩, heq⟩
    cases heq
    exact he
  · exact fun h => ⟨((k, id), i), ⟨h, rfl⟩, rfl⟩

theorem values_ofRule : (t.ofRule k).values = (t.filter fun a _ => a.1 == k).values :=
  List.map_map

theorem find?_setRule (rs : RuleInstances) (q : RuleKey) (id : String) :
    (t.setRule k rs).find? (q, id) = if q = k then rs.find? id else t.find? (q, id) := by
  have hnodup : (((t.filter fun a _ => a.1 != k).entries ++
      rs.entries.map fun e => ((k, e.1), e.2)).map Prod.fst).Nodup := by
    rw [List.map_append, List.map_map, List.nodup_append]
    refine ⟨Table.nodup_keys _, ?_, ?_⟩
    · refine List.Nodup.of_map Prod.snd ?_
      rw [List.map_map]
      exact rs.nodup_keys
    · rintro a ha b hb rfl
      obtain ⟨e, he, rfl⟩ := List.mem_map.1 ha
      obtain ⟨f, -, heq⟩ := List.mem_map.1 hb
      have hne := (List.mem_filter.1 he).2
      rw [← heq] at hne
      simp at hne
  refine Option.ext fun i => ?_
  unfold setRule
  rw [Table.find?_ofList_of_nodup hnodup, List.mem_append, ← Table.find?_eq_some_iff,
    Table.find?_filter]
  by_cases hq : q = k
  · subst hq
    simp [Table.find?_eq_some_iff]
  · rw [if_neg hq]
    simp [hq, Ne.symm hq]

end FlatCache

namespace Cache

/-- The entries of the rules of one org. -/
def entriesIn (org : Int) (rules : Table String RuleInstances) : List (Address × Instance) :=
  rules.entries.flatMap fun e => e.2.entries.map fun f => ((⟨org, e.1⟩, f.1), f.2)

theorem mem_entriesIn {org : Int} {rules : Table String RuleInstances} {a : Address}
    {i : Instance} : (a, i) ∈ entriesIn org rules ↔
      a.1.org = org ∧ ∃ rs, rules.find? a.1.uid = some rs ∧ rs.find? a.2 = some i := by
  obtain ⟨⟨org', uid⟩, id⟩ := a
  unfold entriesIn
  simp only [List.mem_flatMap, List.mem_map, Table.find?_eq_some_iff, Prod.mk.injEq,
    RuleKey.mk.injEq]
  constructor
  · rintro ⟨⟨_, rs⟩, he, ⟨_, _⟩, hf, ⟨⟨rfl, rfl⟩, rfl⟩, rfl⟩
    exact ⟨rfl, rs, he, hf⟩
  · rintro ⟨rfl, rs, he, hf⟩
    exact ⟨(uid, rs), he, (id, i), hf, ⟨⟨rfl, rfl⟩, rfl⟩, rfl⟩

theorem sorted_entriesIn (org : Int) (rules : Table String RuleInstances) :
    (entriesIn org rules).Pairwise fun a b => compare a.1 b.1 = .lt := by
  refine List.pairwise_flatMap.2 ⟨fun e _ => ?_, rules.sorted.imp fun {e e'} hlt a ha b hb => ?_⟩
  · refine List.pairwise_map.2 (e.2.sorted.imp fun {f f'} hlt => ?_)
    rw [Address.compare_eq_then, Std.compare_self]
    exact hlt
  · obtain ⟨f, -, rfl⟩ := List.mem_map.1 ha
    obtain ⟨f', -, rfl⟩ := List.mem_map.1 hb
    refine Address.compare_of_rule_lt ?_
    rw [RuleKey.compare_eq_then, Std.compare_self]
    exact hlt

/-- The cache as one table. -/
def flat (c : Cache) : FlatCache where
  entries := c.orgs.entries.flatMap fun e => entriesIn e.1 e.2
  sorted := by
    refine List.pairwise_flatMap.2
      ⟨fun e _ => sorted_entriesIn e.1 e.2, c.orgs.sorted.imp fun {e e'} hlt a ha b hb => ?_⟩
    refine Address.compare_of_rule_lt ?_
    rw [RuleKey.compare_eq_then, (mem_entriesIn.1 ha).1, (mem_entriesIn.1 hb).1, hlt]
    rfl

variable (c : Cache) (k : RuleKey)

theorem find?_flat (a : Address) : c.flat.find? a = c.get? a.1 a.2 := by
  refine Option.ext fun i => ?_
  rw [Table.find?_eq_some_iff, get?_eq_some_iff]
  unfold flat
  simp only [List.mem_flatMap, mem_entriesIn]
  constructor
  · rintro ⟨⟨_, rules⟩, he, rfl, rs, hrs, hi⟩
    exact ⟨rules, Table.find?_eq_some_iff.2 he, rs, hrs, hi⟩
  · rintro ⟨rules, hrules, rs, hrs, hi⟩
    exact ⟨(a.1.org, rules), Table.find?_eq_some_iff.1 hrules, rfl, rs, hrs, hi⟩

/-! ## Readings -/

theorem ofRule_flat : c.flat.ofRule k = c.ofRule k :=
  Table.ext_find? fun id => (FlatCache.find?_ofRule c.flat k id).trans (c.find?_flat (k, id))

theorem snapshot_eq_values : c.snapshot = c.flat.values := by
  unfold snapshot flat entriesIn Table.values
  simp only [List.flatMap_map, List.map_flatMap, List.map_map]
  rfl

theorem inOrg_eq_values (org : Int) :
    c.inOrg org = (c.flat.filter fun a _ => a.1.org == org).values := by
  have hentries : (⟨entriesIn org (c.ofOrg org), sorted_entriesIn org _⟩ : FlatCache) =
      c.flat.filter fun a _ => a.1.org == org := by
    refine Table.ext_find? fun a => Option.ext fun i => ?_
    rw [Table.find?_eq_some_iff, mem_entriesIn, Table.find?_filter, Option.filter_eq_some_iff,
      find?_flat, beq_iff_eq, and_comm]
    refine and_congr_left fun horg => ?_
    rw [get?_eq_some_iff, horg]
    unfold ofOrg
    cases c.orgs.find? org with
    | none => simp [show (∅ : Table String RuleInstances) = Table.empty from rfl]
    | some rules => simp
  rw [← hentries]
  unfold inOrg entriesIn Table.values
  simp only [List.flatMap_map, List.map_flatMap, List.map_map]
  rfl

theorem foldl_add_eq {α : Type u} (f : α → Nat) (l : List α) (n : Nat) :
    l.foldl (fun n a => n + f a) n = n + (l.map f).sum := by
  induction l generalizing n with
  | nil => rfl
  | cons a l ih =>
      rw [List.foldl_cons, ih, List.map_cons, List.sum_cons, Nat.add_assoc]

theorem size_eq : c.size = c.flat.size := by
  have hsnapshot : c.flat.size = c.snapshot.length := by
    rw [snapshot_eq_values]
    exact (List.length_map _).symm
  rw [hsnapshot]
  unfold size snapshot
  simp only [foldl_add_eq, List.length_flatMap, Nat.zero_add]
  simp only [Table.values, List.length_map]
  rfl

theorem isEmpty_eq : c.isEmpty = c.flat.isEmpty := by
  unfold isEmpty
  rw [size_eq, Table.size, Table.isEmpty]
  cases c.flat.entries <;> rfl

/-- What a count is the count of. -/
theorem countP_snapshot (s : Status) :
    c.snapshot.countP (·.status == s) = (c.flat.filter fun _ i => i.status == s).size := by
  rw [snapshot_eq_values, Table.values, List.countP_map, List.countP_eq_length_filter]
  rfl

theorem mem_countByStatus_iff {s : Status} {n : Nat} : (s, n) ∈ c.countByStatus ↔
    (c.flat.filter fun _ i => i.status == s).size = n ∧ n ≠ 0 := by
  unfold countByStatus
  rw [List.mem_filter, bne_iff_ne]
  refine and_congr_left fun _ => ?_
  rw [← countP_snapshot, List.mem_map]
  constructor
  · rintro ⟨s', -, heq⟩
    obtain ⟨rfl, rfl⟩ := Prod.mk.inj heq
    rfl
  · rintro rfl
    exact ⟨s, by cases s <;> decide, rfl⟩

theorem nodup_countByStatus : (c.countByStatus.map Prod.fst).Nodup := by
  have hall : ((Status.all.map fun s => (s, c.snapshot.countP (·.status == s))).map
      Prod.fst).Nodup := by
    rw [List.map_map]
    exact (by decide : (Status.all.map id).Nodup)
  exact hall.sublist (List.filter_sublist.map Prod.fst)

theorem sum_countP_status (is : List Instance) :
    (Status.all.map fun s => is.countP (·.status == s)).sum = is.length := by
  induction is with
  | nil => rfl
  | cons i is ih =>
      rw [List.length_cons, ← ih]
      cases hs : i.status <;> simp [Status.all, hs] <;> omega

theorem sum_filter_ne_zero {α : Type u} (l : List (α × Nat)) :
    ((l.filter (·.2 != 0)).map Prod.snd).sum = (l.map Prod.snd).sum := by
  induction l with
  | nil => rfl
  | cons e l ih =>
      by_cases he : e.2 = 0
      · simp [he, ih]
      · simp [he, ih]

theorem sum_countByStatus : (c.countByStatus.map Prod.snd).sum = c.size := by
  unfold countByStatus
  rw [sum_filter_ne_zero, List.map_map, size_eq, Table.size]
  refine (sum_countP_status c.snapshot).trans ?_
  rw [snapshot_eq_values]
  exact List.length_map _

/-! ## Writings -/

/-- No map on any level is empty. -/
def Pruned (c : Cache) : Prop :=
  ∀ org rules, c.orgs.find? org = some rules →
    rules ≠ ∅ ∧ ∀ uid rs, rules.find? uid = some rs → rs ≠ ∅

theorem pruned_empty : ({} : Cache).Pruned := by
  intro org rules hrules
  cases hrules

variable {c}

theorem Pruned.ofOrg (h : c.Pruned) {org : Int} {uid : String} {rs : RuleInstances}
    (hrs : (c.ofOrg org).find? uid = some rs) : rs ≠ ∅ := by
  unfold Cache.ofOrg at hrs
  cases hrules : c.orgs.find? org with
  | none =>
      rw [hrules] at hrs
      cases hrs
  | some rules =>
      rw [hrules] at hrs
      exact (h org rules hrules).2 uid rs hrs

/-- An org is written back without an empty map, whatever has become of its rules. -/
theorem pruned_mk (h : c.Pruned) (org : Int) {rules : Table String RuleInstances}
    (hrules : ∀ uid rs, rules.find? uid = some rs → rs ≠ ∅) :
    (⟨if rules.isEmpty then c.orgs.erase org else c.orgs.insert org rules⟩ : Cache).Pruned := by
  intro other rules' hother
  by_cases hempty : rules.isEmpty = true
  · rw [if_pos hempty, Table.find?_erase, Option.ite_none_left_eq_some] at hother
    exact h other rules' hother.2
  · rw [if_neg hempty, Table.find?_insert] at hother
    split at hother
    · obtain rfl := Option.some.inj hother
      exact ⟨fun hrules => hempty (Table.isEmpty_iff.2 hrules), hrules⟩
    · exact h other rules' hother

theorem pruned_setRule (h : c.Pruned) (k : RuleKey) (rs : RuleInstances) :
    (c.setRule k rs).Pruned := by
  refine pruned_mk h k.org fun uid rs' hrs' => ?_
  by_cases hrs : rs.isEmpty = true
  · rw [if_pos hrs, Table.find?_erase, Option.ite_none_left_eq_some] at hrs'
    exact h.ofOrg hrs'.2
  · rw [if_neg hrs, Table.find?_insert] at hrs'
    split at hrs'
    · obtain rfl := Option.some.inj hrs'
      exact fun hempty => hrs (Table.isEmpty_iff.2 hempty)
    · exact h.ofOrg hrs'

theorem flat_setRule (c : Cache) (k : RuleKey) (rs : RuleInstances) :
    (c.setRule k rs).flat = c.flat.setRule k rs := by
  refine Table.ext_find? fun a => ?_
  rw [find?_flat, get?_setRule, FlatCache.find?_setRule, find?_flat]

/-- What a removal finds and leaves. An org that is not there is not made for it, and one
goes with its last rule. -/
theorem removeRule_eq (c : Cache) (k : RuleKey) :
    c.removeRule k = match c.orgs.find? k.org with
      | none => ([], c)
      | some rules =>
        (((rules.find? k.uid).getD ∅).values,
          ⟨if (rules.erase k.uid).isEmpty then c.orgs.erase k.org
            else c.orgs.insert k.org (rules.erase k.uid)⟩) := by
  have hremove : c.removeRule k = ((c.ofRule k).values,
      ⟨if ((c.ofOrg k.org).erase k.uid).isEmpty then c.orgs.erase k.org
        else c.orgs.insert k.org ((c.ofOrg k.org).erase k.uid)⟩) := rfl
  rw [hremove]
  unfold ofRule ofOrg
  cases horg : c.orgs.find? k.org with
  | none =>
      have habsent : c.orgs.contains k.org = false := by
        rw [Table.contains, horg]
        rfl
      show ((∅ : RuleInstances).values, (⟨c.orgs.erase k.org⟩ : Cache)) = ([], c)
      rw [Table.erase_of_not_contains habsent]
      rfl
  | some rules => rfl

theorem flat_removeRule (c : Cache) (k : RuleKey) :
    c.flat.removeRule k = ((c.removeRule k).1, (c.removeRule k).2.flat) := by
  have hleft : (c.removeRule k).2.flat = c.flat.filter fun a _ => a.1 != k := by
    have hremove : (c.removeRule k).2 = c.setRule k ∅ := rfl
    refine Table.ext_find? fun ⟨q, id⟩ => ?_
    rw [hremove, flat_setRule, FlatCache.find?_setRule, Table.find?_filter]
    by_cases hq : q = k
    · simp [hq, show (∅ : RuleInstances) = Table.empty from rfl]
    · rw [if_neg hq, bne_iff_ne.2 hq]
      cases c.flat.find? (q, id) <;> rfl
  have hremoved : (c.removeRule k).1 = (c.flat.filter fun a _ => a.1 == k).values := by
    rw [← FlatCache.values_ofRule, ofRule_flat]
    rfl
  rw [hleft, hremoved]
  rfl

theorem flat_withRule (c : Cache) (k : RuleKey) (f : RuleInstances → α × RuleInstances) :
    c.flat.withRule k f = ((c.withRule k f).1, (c.withRule k f).2.flat) := by
  unfold FlatCache.withRule withRule
  rw [ofRule_flat]
  dsimp only
  rw [flat_setRule]

theorem flat_set (c : Cache) (i : Instance) : c.flat.set i = (c.set i).flat := by
  refine Table.ext_find? fun a => ?_
  rw [FlatCache.set, Table.find?_insert, find?_flat, find?_flat, get?_set]
  simp

end Cache

/-! ## Calls -/

/-- A call that changes a cache. -/
inductive CacheCall : Type 1 where
  | set (i : Instance)
  | withRule {α : Type} (k : RuleKey) (f : RuleInstances → α × RuleInstances)
  | removeRule (k : RuleKey)
  | reset

namespace CacheCall

def Answer : CacheCall → Type
  | @withRule α _ _ => α
  | removeRule _ => List Instance
  | _ => Unit

def onCache (c : Cache) : (call : CacheCall) → call.Answer × Cache
  | set i => ((), c.set i)
  | withRule k f => c.withRule k f
  | removeRule k => c.removeRule k
  | reset => ((), {})

def onFlat (t : FlatCache) : (call : CacheCall) → call.Answer × FlatCache
  | set i => ((), t.set i)
  | withRule k f => t.withRule k f
  | removeRule k => t.removeRule k
  | reset => ((), ∅)

/-- **One call.** It does to the levels what it does to the table. -/
theorem onFlat_flat (c : Cache) (call : CacheCall) :
    call.onFlat c.flat = ((call.onCache c).1, (call.onCache c).2.flat) := by
  cases call with
  | set i => exact Prod.ext rfl (c.flat_set i)
  | withRule k f => exact c.flat_withRule k f
  | removeRule k => exact c.flat_removeRule k
  | reset => rfl

theorem pruned_onCache {c : Cache} (h : c.Pruned) (call : CacheCall) :
    (call.onCache c).2.Pruned := by
  cases call with
  | set i => exact Cache.pruned_setRule h i.ruleKey _
  | withRule k f => exact Cache.pruned_setRule h k _
  | removeRule k => exact Cache.pruned_setRule h k ∅
  | reset => exact Cache.pruned_empty

end CacheCall

namespace Cache

/-- Calls one after the other, from the empty cache. -/
def after (calls : List CacheCall) : Cache := calls.foldl (fun c call => (call.onCache c).2) {}

end Cache

namespace FlatCache

/-- The same calls on the table. -/
def after (calls : List CacheCall) : FlatCache := calls.foldl (fun t call => (call.onFlat t).2) ∅

end FlatCache

namespace Cache

/-- What is read of the cache is read of the table. -/
structure Shows (c : Cache) (t : FlatCache) : Prop where
  /-- No map on any level is empty. -/
  pruned : c.Pruned
  get? : ∀ k id, c.get? k id = t.find? (k, id)
  ofRule : ∀ k, (c.ofRule k).values = (t.filter fun a _ => a.1 == k).values
  inOrg : ∀ org, c.inOrg org = (t.filter fun a _ => a.1.org == org).values
  snapshot : c.snapshot = t.values
  size : c.size = t.size
  isEmpty : c.isEmpty = t.isEmpty
  /-- The counts are those of the states that occur, each once. -/
  counts : ∀ s n, (s, n) ∈ c.countByStatus ↔ (t.filter fun _ i => i.status == s).size = n ∧ n ≠ 0
  distinct : (c.countByStatus.map Prod.fst).Nodup
  sum : (c.countByStatus.map Prod.snd).sum = c.size

theorem shows_flat {c : Cache} (h : c.Pruned) : c.Shows c.flat where
  pruned := h
  get? k id := (c.find?_flat (k, id)).symm
  ofRule k := by rw [← FlatCache.values_ofRule, ofRule_flat]
  inOrg := c.inOrg_eq_values
  snapshot := c.snapshot_eq_values
  size := c.size_eq
  isEmpty := c.isEmpty_eq
  counts _ _ := c.mem_countByStatus_iff
  distinct := c.nodup_countByStatus
  sum := c.sum_countByStatus

theorem flat_after (calls : List CacheCall) :
    (after calls).Pruned ∧ FlatCache.after calls = (after calls).flat := by
  induction calls using List.reverseRecOn with
  | nil => exact ⟨pruned_empty, rfl⟩
  | append_singleton calls call ih =>
      obtain ⟨hpruned, hflat⟩ := ih
      unfold after at hpruned hflat ⊢
      unfold FlatCache.after at hflat ⊢
      rw [List.foldl_append, List.foldl_append, hflat]
      exact ⟨call.pruned_onCache hpruned, congrArg Prod.snd (call.onFlat_flat _)⟩

/-- **The cache is a table.** After any calls nothing that is read of the levels differs from
the table that the same calls plainly leave, and the next call, whichever it is, answers what
it answers on the table: a removal returns the instances of the entries that it takes out. -/
theorem shows_of_run (calls : List CacheCall) :
    (after calls).Shows (FlatCache.after calls) ∧ ∀ call : CacheCall,
      (call.onCache (after calls)).1 = (call.onFlat (FlatCache.after calls)).1 := by
  obtain ⟨hpruned, hflat⟩ := flat_after calls
  rw [hflat]
  exact ⟨shows_flat hpruned, fun call => congrArg Prod.fst (call.onFlat_flat _).symm⟩

end Cache

end Vigil
