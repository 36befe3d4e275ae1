import Vigil.Engine.Scheduler
import Vigil.Proofs.Table.Keys

/-!
# Live routines and listed rules

A registry keeps the routine of every rule that it ever knew and remembers which of them
are live. Those are the ones that have not been told to stop (`Registry.Sound`). Giving
routines to a list of rules makes new ones for the rules that have none and leaves the
others alone (`Registry.entries_ensure`, `Registry.find?_ensure`). A rule set that comes
from a listing has every rule under its own key (`RuleSet.Keyed`), and listing it again
changes nothing (`RuleSet.Keyed.ofListing_all`).
-/

namespace Vigil

/-! ## Listings -/

namespace RuleSet

variable {s : RuleSet}

/-- Every rule stands under its own key. -/
def Keyed (s : RuleSet) : Prop := ∀ k r, s.rules.find? k = some r → r.key = k

theorem keyed_empty : Keyed {} := fun _ _ h => absurd h nofun

theorem keyed_ofListing (rules : List Rule) (folders : Table String String) :
    (ofListing rules folders).Keyed := by
  intro k r h
  obtain ⟨r', -, hr'⟩ := List.mem_map.1 (Table.mem_of_find?_ofList h)
  cases hr'
  rfl

theorem Keyed.remove (h : s.Keyed) (k : RuleKey) : (s.remove k).Keyed := by
  intro k' r hr
  unfold RuleSet.remove at hr
  dsimp only at hr
  rw [Table.find?_erase] at hr
  split at hr
  · cases hr
  · exact h k' r hr

theorem Keyed.map_pair_all (h : s.Keyed) : (s.all.map fun r => (r.key, r)) = s.rules.entries := by
  have hself : ∀ e ∈ s.rules.entries, (e.2.key, e.2) = id e := fun e he => by
    rw [h e.1 e.2 (Table.find?_eq_some_iff.2 he)]
    rfl
  unfold all Table.values
  rw [List.map_map]
  exact (List.map_congr_left hself).trans (List.map_id _)

theorem Keyed.map_key_all (h : s.Keyed) : s.all.map Rule.key = s.rules.keys := by
  have hpairs := congrArg (List.map Prod.fst) h.map_pair_all
  rw [List.map_map] at hpairs
  exact hpairs

/-- Listing the rules of a rule set gives the rule set. -/
theorem Keyed.ofListing_all (h : s.Keyed) : ofListing s.all s.folders = s := by
  unfold ofListing
  rw [h.map_pair_all, Table.ofList_entries]

end RuleSet

/-! ## Routines -/

/-- The routine once its rule is deleted, if it was not told to stop before. -/
def Worker.dismissed (w : Worker) : Worker :=
  { w with handle := (w.handle.fire .ruleDeleted).2 }

theorem Worker.key_dismissed (w : Worker) : w.dismissed.key = w.key := by
  unfold dismissed Handle.fire
  cases w.handle.stop <;> rfl

theorem Worker.stop_dismissed (w : Worker) : w.dismissed.handle.stop ≠ none := by
  unfold dismissed Handle.fire
  cases hstop : w.handle.stop with
  | none => exact nofun
  | some r =>
      show w.handle.stop ≠ none
      rw [hstop]
      exact nofun

namespace Registry

/-- A live number leads to the routine of its rule, and a routine is live until it is
told to stop. -/
structure Sound (g : Registry Worker) : Prop where
  live : ∀ {k n}, g.find? k = some n → ∃ w, g.entries[n]? = some w ∧ w.key = k
  unstopped : ∀ {n w}, g.entries[n]? = some w →
    (w.handle.stop = none ↔ g.find? w.key = some n)

variable {g : Registry Worker}

theorem sound_empty : Sound {} := ⟨nofun, nofun⟩

theorem mem_keys_iff {k : RuleKey} : k ∈ g.keys ↔ (g.find? k).isSome = true :=
  Table.mem_keys_iff

theorem getElem?_modify (g : Registry Worker) (n m : Nat) (f : Worker → Worker) :
    (g.modify n f).entries[m]? = if n = m then g.entries[m]?.map f else g.entries[m]? := by
  show (g.entries.modify n f)[m]? = _
  rw [List.getElem?_modify]
  split
  · rfl
  · exact congrFun Option.map_id _

/-- Changing one routine keeps the registry sound as long as it keeps its rule and its
stop signal. -/
theorem Sound.modify (hg : g.Sound) (n : Nat) {f : Worker → Worker}
    (hf : ∀ w, g.entries[n]? = some w →
      (f w).key = w.key ∧ (f w).handle.stop = w.handle.stop) : (g.modify n f).Sound := by
  have hentries := fun m => g.getElem?_modify n m f
  constructor
  · intro k m hk
    obtain ⟨w, hw, hkey⟩ := hg.live hk
    rw [hentries m]
    by_cases hnm : n = m
    · subst hnm
      rw [if_pos rfl, hw]
      exact ⟨f w, rfl, (hf w hw).1.trans hkey⟩
    · rw [if_neg hnm]
      exact ⟨w, hw, hkey⟩
  · intro m w hw
    rw [hentries m] at hw
    by_cases hnm : n = m
    · subst hnm
      rw [if_pos rfl] at hw
      obtain ⟨u, hu, rfl⟩ := Option.map_eq_some_iff.1 hw
      rw [(hf u hu).1, (hf u hu).2]
      exact hg.unstopped hu
    · rw [if_neg hnm] at hw
      exact hg.unstopped hw

/-! ### New routines -/

/-- Gives each rule a routine that has none. -/
def ensure (g : Registry Worker) (ks : List RuleKey) : Registry Worker :=
  ks.foldl (fun g k => (g.getOrCreate k Worker.new).2) g

theorem find?_getOrCreate (g : Registry Worker) (k q : RuleKey) :
    (g.getOrCreate k Worker.new).2.find? q =
      if q = k then some ((g.find? k).getD g.entries.length) else g.find? q := by
  unfold getOrCreate
  cases hk : g.live.find? k with
  | some n =>
      by_cases hq : q = k
      · rw [if_pos hq, hq]
        exact hk.trans (by rw [find?, hk]; rfl)
      · rw [if_neg hq]
  | none =>
      show (g.live.insert k g.entries.length).find? q = _
      rw [Table.find?_insert]
      by_cases hq : q = k
      · rw [if_pos hq, if_pos (by simp [hq]), find?, hk]
        rfl
      · rw [if_neg hq, if_neg (by simpa using hq)]
        rfl

theorem entries_getOrCreate (g : Registry Worker) (k : RuleKey) :
    (g.getOrCreate k Worker.new).2.entries =
      g.entries ++ if (g.find? k).isSome then [] else [Worker.new k] := by
  unfold getOrCreate find?
  cases hk : g.live.find? k with
  | some n => exact (List.append_nil _).symm
  | none => rfl

theorem Sound.getOrCreate (hg : g.Sound) (k : RuleKey) :
    (g.getOrCreate k Worker.new).2.Sound := by
  cases hk : g.find? k with
  | some n =>
      have hsame : (g.getOrCreate k Worker.new).2 = g := by
        unfold Registry.getOrCreate
        rw [show g.live.find? k = some n from hk]
      rw [hsame]
      exact hg
  | none =>
      have hentries : (g.getOrCreate k Worker.new).2.entries = g.entries ++ [Worker.new k] := by
        rw [entries_getOrCreate, hk]
        rfl
      have hfind : ∀ q, (g.getOrCreate k Worker.new).2.find? q =
          if q = k then some g.entries.length else g.find? q := fun q => by
        rw [find?_getOrCreate, hk]
        rfl
      constructor
      · intro q n hq
        rw [hfind] at hq
        rw [hentries]
        by_cases hqk : q = k
        · rw [if_pos hqk] at hq
          obtain rfl := Option.some.inj hq
          exact ⟨Worker.new k, by simp, hqk.symm⟩
        · rw [if_neg hqk] at hq
          obtain ⟨w, hw, hkey⟩ := hg.live hq
          refine ⟨w, ?_, hkey⟩
          rw [List.getElem?_append_left (List.getElem?_eq_some_iff.1 hw).1, hw]
      · intro n w hw
        rw [hentries] at hw
        rw [hfind]
        by_cases hn : n < g.entries.length
        · rw [List.getElem?_append_left hn] at hw
          rw [hg.unstopped hw]
          by_cases hwk : w.key = k
          -- no entry of the old registry is live for the new rule
          · rw [if_pos hwk, hwk, hk]
            constructor
            · exact nofun
            · intro h
              cases h
              exact absurd hn (Nat.lt_irrefl _)
          · rw [if_neg hwk]
        · obtain rfl : n = g.entries.length := by
            have hlt := (List.getElem?_eq_some_iff.1 hw).1
            rw [List.length_append, List.length_singleton] at hlt
            omega
          rw [List.getElem?_append_right (Nat.le_refl _), Nat.sub_self] at hw
          obtain rfl := Option.some.inj hw
          exact ⟨fun _ => if_pos rfl, fun _ => rfl⟩

theorem ensure_snoc (g : Registry Worker) (ks : List RuleKey) (k : RuleKey) :
    g.ensure (ks ++ [k]) = ((g.ensure ks).getOrCreate k Worker.new).2 := by
  unfold ensure
  rw [List.foldl_append]
  rfl

theorem Sound.ensure (hg : g.Sound) (ks : List RuleKey) : (g.ensure ks).Sound := by
  induction ks using List.reverseRecOn with
  | nil => exact hg
  | append_singleton ks k ih =>
      rw [ensure_snoc]
      exact ih.getOrCreate k

theorem isSome_find?_ensure (g : Registry Worker) (ks : List RuleKey) (q : RuleKey) :
    ((g.ensure ks).find? q).isSome = (decide (q ∈ ks) || (g.find? q).isSome) := by
  induction ks using List.reverseRecOn with
  | nil => simp [ensure]
  | append_singleton ks k ih =>
      rw [ensure_snoc, find?_getOrCreate]
      by_cases hq : q = k
      · simp [hq]
      · simp [hq, ih]

/-- Rules that have a routine need no other. -/
theorem ensure_of_live {ks : List RuleKey} (h : ∀ k ∈ ks, (g.find? k).isSome = true) :
    g.ensure ks = g := by
  induction ks using List.reverseRecOn with
  | nil => rfl
  | append_singleton ks k ih =>
      obtain ⟨n, hn⟩ := Option.isSome_iff_exists.1
        (h k (List.mem_append_right _ List.mem_cons_self))
      rw [ensure_snoc, ih fun q hq => h q (List.mem_append_left _ hq)]
      unfold getOrCreate
      rw [show g.live.find? k = some n from hn]

/-- The rules that had no routine get one each, in the order of the list. -/
theorem entries_ensure (g : Registry Worker) {ks : List RuleKey} (hks : ks.Nodup) :
    (g.ensure ks).entries =
      g.entries ++ (ks.filter fun k => !(g.find? k).isSome).map Worker.new := by
  induction ks using List.reverseRecOn with
  | nil => exact (List.append_nil _).symm
  | append_singleton ks k ih =>
      obtain ⟨hnodup, -, hdisjoint⟩ := List.nodup_append.1 hks
      have hk : k ∉ ks := fun hmem => hdisjoint k hmem k List.mem_cons_self rfl
      rw [ensure_snoc, entries_getOrCreate, ih hnodup, isSome_find?_ensure, List.filter_append,
        List.map_append, List.append_assoc]
      congr 2
      cases hfound : g.find? k with
      | some n => simp [hfound]
      | none => simp [hfound, hk]

/-- A routine of a registry that got new ones is an old one, or it has nothing to do. -/
theorem entry_ensure {ks : List RuleKey} (hks : ks.Nodup) {n : Nat} {w : Worker}
    (hw : (g.ensure ks).entries[n]? = some w) :
    g.entries[n]? = some w ∨ g.entries[n]? = none ∧ ∃ k, w = .new k := by
  rw [entries_ensure g hks] at hw
  by_cases hn : n < g.entries.length
  · rw [List.getElem?_append_left hn] at hw
    exact Or.inl hw
  · have hle := Nat.le_of_not_lt hn
    rw [List.getElem?_append_right hle, List.getElem?_map] at hw
    obtain ⟨k, -, rfl⟩ := Option.map_eq_some_iff.1 hw
    exact Or.inr ⟨List.getElem?_eq_none hle, k, rfl⟩

theorem getElem?_ensure {ks : List RuleKey} (hks : ks.Nodup) {n : Nat} {w : Worker}
    (hw : g.entries[n]? = some w) : (g.ensure ks).entries[n]? = some w := by
  rw [entries_ensure g hks,
    List.getElem?_append_left (List.getElem?_eq_some_iff.1 hw).1, hw]

/-- New routines have nothing before them. -/
theorem bind_ensure {α : Type} {ks : List RuleKey} (hks : ks.Nodup)
    (f : Worker → Option α) (hf : ∀ k, f (.new k) = none) (n : Nat) :
    (g.ensure ks).entries[n]?.bind f = g.entries[n]?.bind f := by
  cases hw : (g.ensure ks).entries[n]? with
  | some w =>
      rcases entry_ensure hks hw with hold | ⟨hnone, k, rfl⟩
      · rw [hold]
      · rw [hnone]
        exact hf k
  | none =>
      cases hold : g.entries[n]? with
      | none => rfl
      | some w => cases hw.symm.trans (getElem?_ensure hks hold)

end Registry

end Vigil
