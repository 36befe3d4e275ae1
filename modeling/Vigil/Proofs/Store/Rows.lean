import Mathlib.Data.List.Perm.Basic
import Vigil.Proofs.Cache.Names
import Vigil.Store

/-!
# The rows of a store

A store that is only saved to and deleted from keeps one row for each address, under the org
of its rule (`Store.Tidy`). What it holds is then plain: a saved row replaces that of its
address (`Store.mem_rows_save`), a deleted address has none (`Store.mem_rows_delete`), and
the listings of all orgs together show each row once (`Store.perm_listing`).
-/

namespace Vigil

/-- Where a row is filed: its rule and the digest of its labels. -/
def Row.address (row : Row) : Address := (row.ruleKey, row.hash)

theorem Row.isFor_iff {row : Row} {org : Int} {uid hash : String} :
    row.isFor org uid hash = true ↔ row.address = (⟨org, uid⟩, hash) := by
  unfold isFor address ruleKey
  rw [Bool.and_eq_true, Bool.and_eq_true, beq_iff_eq, beq_iff_eq, beq_iff_eq, Prod.mk.injEq,
    RuleKey.mk.injEq]

theorem Row.address_ofInstance (i : Instance) :
    (Row.ofInstance i).address = (i.ruleKey, i.labels.id) := rfl

namespace Store

def rows (s : Store) : List Row := s.filed.map (·.2)

/-- Rows of all orgs, in order of the orgs. -/
def listing (s : Store) : List Row := s.orgs.flatMap s.list

/-- Each address has one row at most, and that is filed under the org of its rule. -/
structure Tidy (s : Store) : Prop where
  own : ∀ e ∈ s.filed, e.1 = e.2.org
  distinct : (s.rows.map Row.address).Nodup

theorem tidy_empty : ({} : Store).Tidy :=
  ⟨fun _ he => absurd he List.not_mem_nil, List.nodup_nil⟩

variable {s : Store} {row : Row}

/-! ## Saving -/

/-- A saved row takes the place of the one for its address, or the last place. -/
theorem save_cases (s : Store) (row : Row) :
    (∃ before e after, s.filed = before ++ e :: after ∧ e.2.address = row.address ∧
        (s.save row).filed = before ++ (e.1, row) :: after) ∨
      (∀ r ∈ s.rows, r.address ≠ row.address) ∧
        (s.save row).filed = s.filed ++ [(row.org, row)] := by
  unfold save
  cases hplace : s.filed.findIdx? fun e => e.2.isFor row.org row.ruleUid row.hash with
  | some n =>
      obtain ⟨hn, hfor, -⟩ := List.findIdx?_eq_some_iff_getElem.1 hplace
      obtain ⟨before, e, after, hfiled, hlength, hmodify⟩ :=
        List.exists_of_modify (fun e : Int × Row => (e.1, row)) hn
      refine Or.inl ⟨before, e, after, hfiled, ?_, hmodify⟩
      have he : s.filed[n] = e := by simp [hfiled, ← hlength]
      rw [he] at hfor
      exact Row.isFor_iff.1 hfor
  | none =>
      refine Or.inr ⟨fun r hr haddress => ?_, rfl⟩
      obtain ⟨e, he, rfl⟩ := List.mem_map.1 hr
      have hno := List.findIdx?_eq_none_iff.1 hplace e he
      rw [Row.isFor_iff.2 haddress] at hno
      cases hno

theorem tidy_save (h : s.Tidy) {row : Row} : (s.save row).Tidy := by
  obtain ⟨hown, hdistinct⟩ := h
  rcases s.save_cases row with ⟨before, e, after, hfiled, haddress, hsaved⟩ | ⟨hnew, hsaved⟩
  · have horg : e.1 = row.org := by
      rw [hown e (by simp [hfiled])]
      exact congrArg (fun a : Address => a.1.org) haddress
    refine ⟨fun e' he' => ?_, ?_⟩
    · rw [hsaved, List.mem_append, List.mem_cons] at he'
      rcases he' with he' | rfl | he'
      · exact hown e' (by simp [hfiled, he'])
      · exact horg
      · exact hown e' (by simp [hfiled, he'])
    · rw [rows, hfiled] at hdistinct
      rw [rows, hsaved]
      simpa [haddress] using hdistinct
  · refine ⟨fun e' he' => ?_, ?_⟩
    · rw [hsaved, List.mem_append, List.mem_singleton] at he'
      rcases he' with he' | rfl
      · exact hown e' he'
      · rfl
    · have hrows : (s.save row).rows = s.rows ++ [row] := by
        rw [rows, hsaved, List.map_append]
        rfl
      rw [hrows, List.map_append, List.nodup_append]
      refine ⟨hdistinct, List.nodup_singleton _, fun a ha b hb hab => ?_⟩
      obtain ⟨r, hr, rfl⟩ := List.mem_map.1 ha
      exact hnew r hr (hab.trans (List.mem_singleton.1 hb))

/-- A saved row is there, and of the others those for other addresses. -/
theorem mem_rows_save (h : s.Tidy) {row r : Row} :
    r ∈ (s.save row).rows ↔ r = row ∨ r ∈ s.rows ∧ r.address ≠ row.address := by
  have hdistinct := h.distinct
  rcases s.save_cases row with ⟨before, e, after, hfiled, haddress, hsaved⟩ | ⟨hnew, hsaved⟩
  · have hrows : s.rows = before.map (·.2) ++ e.2 :: after.map (·.2) := by simp [rows, hfiled]
    have hrows' : (s.save row).rows = before.map (·.2) ++ row :: after.map (·.2) := by
      simp [rows, hsaved]
    rw [hrows, List.map_append, List.map_cons, List.nodup_middle, List.nodup_cons,
      ← List.map_append, haddress] at hdistinct
    -- no other row has the address
    have hother : ∀ r ∈ before.map (·.2) ++ after.map (·.2), r.address ≠ row.address :=
      fun r hr hr' => hdistinct.1 (List.mem_map.2 ⟨r, hr, hr'⟩)
    rw [hrows, hrows']
    simp only [List.mem_append, List.mem_cons] at hother ⊢
    constructor
    · rintro (hr | rfl | hr)
      · exact Or.inr ⟨Or.inl hr, hother r (Or.inl hr)⟩
      · exact Or.inl rfl
      · exact Or.inr ⟨Or.inr (Or.inr hr), hother r (Or.inr hr)⟩
    · rintro (rfl | ⟨hr | rfl | hr, hne⟩)
      · exact Or.inr (Or.inl rfl)
      · exact Or.inl hr
      · exact absurd haddress hne
      · exact Or.inr (Or.inr hr)
  · have hrows : (s.save row).rows = s.rows ++ [row] := by
      rw [rows, hsaved, List.map_append]
      rfl
    rw [hrows, List.mem_append, List.mem_singleton, or_comm]
    exact or_congr_right (iff_self_and.2 fun hr => hnew r hr)

/-- Saves a row for each instance. -/
def saveAll (s : Store) (is : List Instance) : Store :=
  is.foldl (fun s i => s.save (.ofInstance i)) s

/-- Instances with different addresses do not take each other's rows. -/
theorem saveAll_frame (h : s.Tidy) {is : List Instance}
    (his : (is.map fun i => (Row.ofInstance i).address).Nodup) :
    (s.saveAll is).Tidy ∧ ∀ r, r ∈ (s.saveAll is).rows ↔
      (∃ i ∈ is, r = .ofInstance i) ∨
        r ∈ s.rows ∧ ∀ i ∈ is, r.address ≠ (Row.ofInstance i).address := by
  induction is generalizing s with
  | nil =>
      refine ⟨h, fun r => ?_⟩
      simp [saveAll]
  | cons i is ih =>
      obtain ⟨hi, his⟩ := List.nodup_cons.1 his
      obtain ⟨htidy, hrows⟩ := ih (s := s.save (.ofInstance i)) (tidy_save h) his
      refine ⟨htidy, fun r => (hrows r).trans ?_⟩
      rw [mem_rows_save h]
      simp only [List.mem_cons, forall_eq_or_imp, exists_eq_or_imp]
      constructor
      · rintro (hr | ⟨rfl | ⟨hr, hne⟩, hothers⟩)
        · exact Or.inl (Or.inr hr)
        · exact Or.inl (Or.inl rfl)
        · exact Or.inr ⟨hr, hne, hothers⟩
      · rintro ((rfl | hr) | ⟨hr, hne, hothers⟩)
        · refine Or.inr ⟨Or.inl rfl, fun j hj heq => hi ?_⟩
          exact List.mem_map.2 ⟨j, hj, heq.symm⟩
        · exact Or.inl hr
        · exact Or.inr ⟨Or.inr ⟨hr, hne⟩, hothers⟩

/-! ## Deleting -/

theorem mem_rows_delete {org : Int} {uid hash : String} {r : Row} :
    r ∈ (s.delete org uid hash).rows ↔ r ∈ s.rows ∧ r.address ≠ (⟨org, uid⟩, hash) := by
  unfold delete rows
  simp only [List.mem_map, List.mem_filter, Bool.not_eq_true', ← Bool.not_eq_true, Row.isFor_iff]
  constructor
  · rintro ⟨e, ⟨he, hne⟩, rfl⟩
    exact ⟨⟨e, he, rfl⟩, hne⟩
  · rintro ⟨⟨e, he, rfl⟩, hne⟩
    exact ⟨e, ⟨he, hne⟩, rfl⟩

theorem tidy_delete (h : s.Tidy) (org : Int) (uid hash : String) :
    (s.delete org uid hash).Tidy := by
  obtain ⟨hown, hdistinct⟩ := h
  refine ⟨fun e he => hown e (List.mem_filter.1 he).1, hdistinct.sublist ?_⟩
  exact (List.filter_sublist.map _).map _

/-- Deletes the row of each instance. -/
def deleteAll (s : Store) (is : List Instance) : Store :=
  is.foldl (fun s i => s.delete i.org i.ruleUid i.labels.id) s

theorem deleteAll_frame (h : s.Tidy) (is : List Instance) :
    (s.deleteAll is).Tidy ∧ ∀ r, r ∈ (s.deleteAll is).rows ↔
      r ∈ s.rows ∧ ∀ i ∈ is, r.address ≠ (Row.ofInstance i).address := by
  induction is generalizing s with
  | nil =>
      refine ⟨h, fun r => ?_⟩
      simp [deleteAll]
  | cons i is ih =>
      obtain ⟨htidy, hrows⟩ := ih (tidy_delete h i.org i.ruleUid i.labels.id)
      refine ⟨htidy, fun r => (hrows r).trans ?_⟩
      rw [mem_rows_delete, and_assoc, List.forall_mem_cons]
      rfl

/-! ## Listing -/

theorem mem_orgs_iff {org : Int} : org ∈ s.orgs ↔ ∃ e ∈ s.filed, e.1 = org := by
  unfold orgs
  rw [Table.mem_keys_iff]
  constructor
  · intro h
    obtain ⟨v, hv⟩ := Table.contains_iff.1 h
    obtain ⟨e, he, heq⟩ := List.mem_map.1 (Table.mem_of_find?_ofList hv)
    exact ⟨e, he, congrArg Prod.fst heq⟩
  · rintro ⟨e, he, rfl⟩
    exact Table.contains_ofList (List.mem_map.2 ⟨e, he, rfl⟩)

theorem mem_list_iff {org : Int} {r : Row} : r ∈ s.list org ↔ (org, r) ∈ s.filed := by
  unfold list
  rw [List.mem_map]
  constructor
  · rintro ⟨e, he, rfl⟩
    obtain ⟨he, horg⟩ := List.mem_filter.1 he
    rwa [← beq_iff_eq.1 horg]
  · exact fun h => ⟨(org, r), List.mem_filter.2 ⟨h, beq_self_eq_true org⟩, rfl⟩

theorem mem_listing_iff {r : Row} : r ∈ s.listing ↔ r ∈ s.rows := by
  unfold listing rows
  rw [List.mem_flatMap, List.mem_map]
  constructor
  · rintro ⟨org, -, hr⟩
    exact ⟨(org, r), mem_list_iff.1 hr, rfl⟩
  · rintro ⟨e, he, rfl⟩
    exact ⟨e.1, mem_orgs_iff.2 ⟨e, he, rfl⟩, mem_list_iff.2 he⟩

/-- **Each row once.** The listings of the orgs show no address twice. -/
theorem nodup_listing (h : s.Tidy) : (s.listing.map Row.address).Nodup := by
  obtain ⟨hown, hdistinct⟩ := h
  refine nodup_flatMap_of_key id (fun a => a.1.org) ?_ (fun org _ => ?_) ?_
  · rw [List.map_id]
    exact Table.nodup_keys _
  · exact hdistinct.sublist ((List.filter_sublist.map _).map _)
  · exact fun org _ r hr => (hown _ (mem_list_iff.1 hr)).symm

end Store

end Vigil
