import Vigil.Proofs.Digest.Boundaries
import Vigil.Proofs.Engine.Tick

/-!
# The order of a listing

A rule source may list its rules in any order. The rules of a listing stand in order of key
(`RuleSet.ofListing_of_perm`), and their UIDs are put in order before they are hashed
(`RuleSetHash.hash_of_perm`). So a tick does not depend on the order of its listing, and
neither do the readings that it leaves (`System.tick_of_perm`).
-/

namespace Vigil

theorem SchedulerMetrics.recordRules_of_perm (m : SchedulerMetrics) {uids uids' : List String}
    (h : uids.Perm uids') : m.recordRules uids = m.recordRules uids' := by
  unfold recordRules
  rw [h.length_eq, RuleSetHash.hash_of_perm h]

namespace RuleSet

variable {listed listed' : List Rule}

theorem map_key_pairs (listed : List Rule) :
    (listed.map fun r => (r.key, r)).map Prod.fst = listed.map Rule.key := by
  rw [List.map_map]
  rfl

theorem mem_pairs_iff {r : Rule} :
    (r.key, r) ∈ (listed.map fun r => (r.key, r)) ↔ r ∈ listed :=
  List.mem_map_of_injective (f := fun r : Rule => (r.key, r)) fun _ _ h => (Prod.mk.inj h).2

/-- Rules with different keys may be listed in any order. -/
theorem ofListing_of_perm (h : listed.Perm listed') (hkeys : (listed.map Rule.key).Nodup)
    (folders : Table String String) : ofListing listed folders = ofListing listed' folders := by
  unfold ofListing
  rw [Table.ofList_of_perm (h.map _) (by rwa [map_key_pairs])]

theorem mem_all_ofListing_iff (hkeys : (listed.map Rule.key).Nodup)
    (folders : Table String String) {r : Rule} :
    r ∈ (ofListing listed folders).all ↔ r ∈ listed := by
  rw [← mem_pairs_iff, (keyed_ofListing listed folders).map_pair_all, ← Table.find?_eq_some_iff,
    ofListing, Table.find?_ofList_of_nodup (by rwa [map_key_pairs]), mem_pairs_iff]

/-- Of rules with different keys none is left out, and none is there twice. -/
theorem perm_all_ofListing (hkeys : (listed.map Rule.key).Nodup)
    (folders : Table String String) : (ofListing listed folders).all.Perm listed := by
  have hall : ((ofListing listed folders).all.map Rule.key).Nodup := by
    rw [(keyed_ofListing listed folders).map_key_all]
    exact Table.nodup_keys _
  exact (List.perm_ext_iff_of_nodup (List.Nodup.of_map _ hall) (List.Nodup.of_map _ hkeys)).2
    fun r => mem_all_ofListing_iff hkeys folders

end RuleSet

namespace System

variable {listed listed' : List Rule}

/-- Of the metrics a tick with a listing sets the readings. -/
theorem metrics_tick_ofListing (s : System) (t : Moment) (hkeys : (listed.map Rule.key).Nodup)
    (folders : Table String String) :
    (s.tick t (some (.ofListing listed folders))).2.shared.metrics = { s.shared.metrics with
      ruleCount := listed.length
      ruleSetReading := RuleSetHash.reading (RuleSetHash.hash (listed.map (·.uid))) } := by
  have hperm := (RuleSet.perm_all_ofListing hkeys folders).map (·.uid)
  obtain ⟨ds, -, htick⟩ := @tick_eq s (some (.ofListing listed folders)) _ rfl
    (RuleSet.keyed_ofListing listed folders) t _ rfl
  rw [htick, delete_eq]
  refine (SchedulerMetrics.recordRules_of_perm _ hperm).trans ?_
  unfold SchedulerMetrics.recordRules
  rw [List.length_map]

/-- **The order of a listing.** A tick reports the same and leaves the same engine, however
the rules of its listing are ordered. The readings are the number of the listed rules and the
hash of their UIDs, and UIDs in any order have one hash. -/
theorem tick_of_perm (s : System) (t : Moment) (folders : Table String String)
    (hperm : listed.Perm listed') (hkeys : (listed.map Rule.key).Nodup) :
    s.tick t (some (.ofListing listed folders)) = s.tick t (some (.ofListing listed' folders)) ∧
      (s.tick t (some (.ofListing listed' folders))).2.shared.metrics = { s.shared.metrics with
        ruleCount := listed.length
        ruleSetReading := RuleSetHash.reading (RuleSetHash.hash (listed.map (·.uid))) } ∧
      ∀ uids uids' : List String, uids.Perm uids' →
        RuleSetHash.hash uids = RuleSetHash.hash uids' := by
  have hsame := RuleSet.ofListing_of_perm hperm hkeys folders
  refine ⟨by rw [hsame], ?_, fun uids uids' => RuleSetHash.hash_of_perm⟩
  rw [← hsame]
  exact s.metrics_tick_ofListing t hkeys folders

/-- Three rules that are due every ten seconds. -/
def threeRules : List Rule := [{ uid := "b" }, { uid := "c" }, { uid := "a" }]

theorem tick_of_perm_reversed :
    threeRules.Perm threeRules.reverse ∧ (threeRules.map Rule.key).Nodup ∧
      (new {} {} .epoch).tick .epoch (some (.ofListing threeRules ∅)) =
        (new {} {} .epoch).tick .epoch (some (.ofListing threeRules.reverse ∅)) ∧
      ((new {} {} .epoch).tick .epoch
        (some (.ofListing threeRules.reverse ∅))).1.scheduled.map (·.key.uid) =
          ["a", "b", "c"] := by
  have hkeys : (threeRules.map Rule.key).Nodup := by decide
  have hperm : threeRules.Perm threeRules.reverse := (List.reverse_perm threeRules).symm
  obtain ⟨htick, -, -⟩ := (new {} {} .epoch).tick_of_perm .epoch ∅ hperm hkeys
  exact ⟨hperm, hkeys, htick, by decide⟩

end System

end Vigil
