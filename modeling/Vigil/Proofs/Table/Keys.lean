import Mathlib.Data.List.Induction
import Mathlib.Data.List.Nodup
import Vigil.Table

/-!
# The keys of a table

A table lists its keys in strictly increasing order, so tables with the same keys list
them alike (`Table.keys_eq_of_contains`). Of the bindings that a table is made of the
last one for a key holds, so their order matters for equal keys only
(`Table.ofList_of_perm`), and a table made of its own entries is the same table
(`Table.ofList_entries`).
-/

namespace Vigil.Table

variable {κ : Type u} {α : Type v} {β : Type w} [Ord κ]

/-! ## Membership -/

theorem contains_iff {t : Table κ α} {k : κ} :
    t.contains k = true ↔ ∃ v, t.find? k = some v := Option.isSome_iff_exists

theorem mem_keys_iff [Std.LawfulEqOrd κ] {t : Table κ α} {k : κ} :
    k ∈ t.keys ↔ t.contains k = true := by
  rw [contains_iff]
  constructor
  · intro h
    obtain ⟨⟨k', v⟩, he, rfl⟩ := List.mem_map.1 h
    exact ⟨v, find?_eq_some_iff.2 he⟩
  · rintro ⟨v, h⟩
    exact List.mem_map.2 ⟨(k, v), find?_eq_some_iff.1 h, rfl⟩

theorem contains_erase [Std.LawfulEqOrd κ] (t : Table κ α) (k q : κ) :
    (t.erase k).contains q = (compare q k != .eq && t.contains q) := by
  rw [contains, find?_erase]
  by_cases h : compare q k = .eq
  · simp [h]
  · simp [h, contains]

/-- Taking out a key that is not there changes nothing. -/
theorem erase_of_not_contains [Std.TransOrd κ] [Std.LawfulEqOrd κ] {t : Table κ α} {k : κ}
    (h : t.contains k = false) : t.erase k = t := by
  refine ext_find? fun q => ?_
  rw [find?_erase]
  by_cases hq : compare q k = .eq
  · obtain rfl := Std.LawfulEqOrd.eq_of_compare hq
    have hnone : t.find? q = none := Option.not_isSome_iff_eq_none.1 (by simpa [contains] using h)
    rw [if_pos hq, hnone]
  · rw [if_neg hq]

/-! ## Order -/

theorem sorted_keys (t : Table κ α) : t.keys.Pairwise fun a b => compare a b = .lt :=
  List.pairwise_map.2 t.sorted

theorem nodup_keys [Std.LawfulEqOrd κ] (t : Table κ α) : t.keys.Nodup := by
  refine t.sorted_keys.imp ?_
  rintro a b hab rfl
  simp at hab

theorem look_map (f : α → β) (q : κ) (es : List (κ × α)) :
    look q (es.map fun e => (e.1, f e.2)) = (look q es).map f := by
  induction es with
  | nil => rfl
  | cons e es ih =>
      rw [List.map_cons]
      unfold look
      split
      · rfl
      · exact ih

theorem find?_map (t : Table κ α) (f : α → β) (q : κ) :
    (t.map f).find? q = (t.find? q).map f := look_map f q t.entries

theorem keys_map (t : Table κ α) (f : α → β) : (t.map f).keys = t.keys := by
  unfold keys map
  rw [List.map_map]
  rfl

/-- Two tables with the same keys list them alike. -/
theorem keys_eq_of_contains [Std.TransOrd κ] [Std.LawfulEqOrd κ] {s : Table κ α} {t : Table κ β}
    (h : ∀ k, s.contains k = t.contains k) : s.keys = t.keys := by
  have hunit : (s.map fun _ => ()) = t.map fun _ => () := by
    refine ext_find? fun q => ?_
    rw [find?_map, find?_map]
    have hq := h q
    unfold contains at hq
    cases hs : s.find? q with
    | none =>
        rw [hs] at hq
        have ht : t.find? q = none := Option.not_isSome_iff_eq_none.1 (by simp [← hq])
        rw [ht]
        rfl
    | some v =>
        rw [hs] at hq
        obtain ⟨u, hu⟩ := Option.isSome_iff_exists.1 hq.symm
        rw [hu]
        rfl
  rw [← keys_map s fun _ => (), hunit, keys_map]

/-! ## Tables of bindings -/

theorem ofList_snoc [Std.TransOrd κ] (es : List (κ × α)) (e : κ × α) :
    ofList (es ++ [e]) = (ofList es).insert e.1 e.2 := by
  unfold ofList
  rw [List.foldl_append]
  rfl

/-- What a table of bindings holds was bound. -/
theorem mem_of_find?_ofList [Std.TransOrd κ] [Std.LawfulEqOrd κ] {es : List (κ × α)} {k : κ}
    {v : α} (h : (ofList es).find? k = some v) : (k, v) ∈ es := by
  induction es using List.reverseRecOn with
  | nil => cases h
  | append_singleton es e ih =>
      rw [ofList_snoc, find?_insert] at h
      split at h
      · rename_i hk
        obtain rfl := Std.LawfulEqOrd.eq_of_compare hk
        cases h
        exact List.mem_append_right _ List.mem_cons_self
      · exact List.mem_append_left _ (ih h)

/-- What was bound a table of bindings holds. -/
theorem contains_ofList [Std.TransOrd κ] [Std.LawfulEqOrd κ] {es : List (κ × α)} {k : κ} {v : α}
    (h : (k, v) ∈ es) : (ofList es).contains k = true := by
  induction es using List.reverseRecOn with
  | nil => cases h
  | append_singleton es e ih =>
      rw [ofList_snoc, contains, find?_insert]
      split
      · rfl
      · rename_i hk
        rcases List.mem_append.1 h with h | h
        · exact ih h
        · rw [← List.mem_singleton.1 h] at hk
          simp at hk

/-- Bindings for different keys all hold. -/
theorem find?_ofList_of_nodup [Std.TransOrd κ] [Std.LawfulEqOrd κ] {es : List (κ × α)}
    (h : (es.map Prod.fst).Nodup) {k : κ} {v : α} :
    (ofList es).find? k = some v ↔ (k, v) ∈ es := by
  refine ⟨mem_of_find?_ofList, fun hv => ?_⟩
  obtain ⟨v', hv'⟩ := contains_iff.1 (contains_ofList hv)
  have heq := List.inj_on_of_nodup_map h hv (mem_of_find?_ofList hv') rfl
  rw [hv', (Prod.mk.inj heq).2]

/-- Bindings for different keys may be in any order. -/
theorem ofList_of_perm [Std.TransOrd κ] [Std.LawfulEqOrd κ] {es fs : List (κ × α)}
    (h : es.Perm fs) (hkeys : (es.map Prod.fst).Nodup) : ofList es = ofList fs := by
  have hkeys' : (fs.map Prod.fst).Nodup := (h.map Prod.fst).nodup_iff.1 hkeys
  refine ext_find? fun q => Option.ext fun v => ?_
  rw [find?_ofList_of_nodup hkeys, find?_ofList_of_nodup hkeys', h.mem_iff]

/-- Of bindings for different keys each answers for its own. -/
theorem look_eq_some_iff_of_nodup [Std.LawfulEqOrd κ] {es : List (κ × α)}
    (h : (es.map Prod.fst).Nodup) {q : κ} {v : α} : look q es = some v ↔ (q, v) ∈ es := by
  induction es with
  | nil => simp [look]
  | cons e es ih =>
      rw [List.map_cons, List.nodup_cons] at h
      obtain ⟨hnew, hes⟩ := h
      rw [look, List.mem_cons]
      by_cases hq : compare q e.1 = .eq
      · obtain rfl := Std.LawfulEqOrd.eq_of_compare hq
        rw [if_pos hq, Option.some.injEq]
        constructor
        · rintro rfl
          exact Or.inl rfl
        · rintro (heq | hmem)
          · exact congrArg Prod.snd heq.symm
          · exact absurd (List.mem_map.2 ⟨_, hmem, rfl⟩) hnew
      · rw [if_neg hq, ih hes]
        constructor
        · exact Or.inr
        · rintro (heq | hmem)
          · exact absurd (congrArg Prod.fst heq) (by simpa using hq)
          · exact hmem

/-- Bindings for different keys answer in any order. -/
theorem look_of_perm [Std.LawfulEqOrd κ] {es fs : List (κ × α)} (h : es.Perm fs)
    (hkeys : (es.map Prod.fst).Nodup) (q : κ) : look q es = look q fs := by
  have hkeys' : (fs.map Prod.fst).Nodup := (h.map Prod.fst).nodup_iff.1 hkeys
  apply Option.ext
  intro v
  rw [look_eq_some_iff_of_nodup hkeys, look_eq_some_iff_of_nodup hkeys', h.mem_iff]

/-- Of bindings in order of their keys none replaces another. -/
theorem find?_ofList_of_sorted [Std.TransOrd κ] [Std.LawfulEqOrd κ] {es : List (κ × α)}
    (hs : es.Pairwise fun a b => compare a.1 b.1 = .lt) (q : κ) :
    (ofList es).find? q = look q es := by
  induction es using List.reverseRecOn with
  | nil => rfl
  | append_singleton es e ih =>
      obtain ⟨hes, -, hlast⟩ := List.pairwise_append.1 hs
      refine Option.ext fun v => ?_
      rw [ofList_snoc, find?_insert, look_eq_some_iff hs, List.mem_append, List.mem_singleton]
      by_cases hq : compare q e.1 = .eq
      · obtain rfl := Std.LawfulEqOrd.eq_of_compare hq
        rw [if_pos hq]
        constructor
        · rintro ⟨rfl⟩
          exact Or.inr rfl
        · rintro (h | h)
          -- no earlier binding is for the last key
          · have := hlast _ h e List.mem_cons_self
            simp at this
          · rw [← h]
      · rw [if_neg hq, ih hes, look_eq_some_iff hes]
        constructor
        · exact Or.inl
        · rintro (h | rfl)
          · exact h
          · simp at hq

theorem ofList_entries [Std.TransOrd κ] [Std.LawfulEqOrd κ] (t : Table κ α) :
    ofList t.entries = t :=
  ext_find? (find?_ofList_of_sorted t.sorted)

end Vigil.Table
