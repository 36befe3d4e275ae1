/-!
# Finite maps in key order

A table holds its entries in strictly increasing order of key. Two tables are
therefore equal exactly when they answer every look-up alike
(`Table.ext_find?`), and listing a table needs no sorting.
-/

namespace Vigil

/-- A finite map, kept as its entries in increasing order of key. -/
structure Table (κ : Type u) (α : Type v) [Ord κ] where
  entries : List (κ × α)
  sorted : entries.Pairwise fun a b => compare a.1 b.1 = .lt

namespace Table

variable {κ : Type u} {α : Type v} {β : Type w} [Ord κ]

instance [DecidableEq κ] [DecidableEq α] : DecidableEq (Table κ α) := fun s t =>
  decidable_of_iff (s.entries = t.entries)
    ⟨fun h => by cases s; cases t; simp_all, fun h => h ▸ rfl⟩

/-- The value of the first entry for `k`. -/
def look (k : κ) : List (κ × α) → Option α
  | [] => none
  | (k', v) :: rest => if compare k k' = .eq then some v else look k rest

/-- Entries with `k` bound to `v`, in place of any earlier binding. -/
def put (k : κ) (v : α) : List (κ × α) → List (κ × α)
  | [] => [(k, v)]
  | (k', v') :: rest =>
    match compare k k' with
    | .lt => (k, v) :: (k', v') :: rest
    | .eq => (k, v) :: rest
    | .gt => (k', v') :: put k v rest

theorem mem_put {k : κ} {v : α} {es : List (κ × α)} {e : κ × α} (h : e ∈ put k v es) :
    e = (k, v) ∨ e ∈ es := by
  induction es with
  | nil => simpa [put] using h
  | cons x rest ih =>
    obtain ⟨k', v'⟩ := x
    simp only [put] at h
    split at h
    · simpa using h
    · rcases List.mem_cons.1 h with h | h
      · exact .inl h
      · exact .inr (List.mem_cons_of_mem _ h)
    · rcases List.mem_cons.1 h with h | h
      · exact .inr (h ▸ List.mem_cons_self)
      · exact (ih h).imp id (List.mem_cons_of_mem _)

theorem sorted_put [Std.TransOrd κ] {k : κ} {v : α} {es : List (κ × α)}
    (h : es.Pairwise fun a b => compare a.1 b.1 = .lt) :
    (put k v es).Pairwise fun a b => compare a.1 b.1 = .lt := by
  induction es with
  | nil => simp [put]
  | cons x rest ih =>
    obtain ⟨k', v'⟩ := x
    obtain ⟨hhead, hrest⟩ := List.pairwise_cons.1 h
    simp only [put]
    split
    · rename_i hlt
      refine List.pairwise_cons.2 ⟨fun e he => ?_, h⟩
      rcases List.mem_cons.1 he with rfl | he
      · exact hlt
      · exact Std.TransCmp.lt_trans hlt (hhead e he)
    · rename_i heq
      exact List.pairwise_cons.2
        ⟨fun e he => Std.TransCmp.lt_of_eq_of_lt heq (hhead e he), hrest⟩
    · rename_i hgt
      refine List.pairwise_cons.2 ⟨fun e he => ?_, ih hrest⟩
      rcases mem_put he with rfl | he
      · exact Std.OrientedCmp.gt_iff_lt.1 hgt
      · exact hhead e he

def empty : Table κ α := ⟨[], .nil⟩

instance : EmptyCollection (Table κ α) := ⟨empty⟩
instance : Inhabited (Table κ α) := ⟨empty⟩

def find? (t : Table κ α) (k : κ) : Option α := look k t.entries

def contains (t : Table κ α) (k : κ) : Bool := (t.find? k).isSome

def insert [Std.TransOrd κ] (t : Table κ α) (k : κ) (v : α) : Table κ α :=
  ⟨put k v t.entries, sorted_put t.sorted⟩

/-- The entries whose key and value pass `p`. -/
def filter (t : Table κ α) (p : κ → α → Bool) : Table κ α :=
  ⟨t.entries.filter fun e => p e.1 e.2, t.sorted.filter _⟩

def erase (t : Table κ α) (k : κ) : Table κ α :=
  t.filter fun k' _ => compare k k' != .eq

/-- The same keys with every value sent through `f`. -/
def map (t : Table κ α) (f : α → β) : Table κ β :=
  ⟨t.entries.map fun e => (e.1, f e.2), List.pairwise_map.2 t.sorted⟩

/-- The table of a list of bindings; of two for one key the later one holds. -/
def ofList [Std.TransOrd κ] (es : List (κ × α)) : Table κ α :=
  es.foldl (fun t e => t.insert e.1 e.2) empty

def toList (t : Table κ α) : List (κ × α) := t.entries
def keys (t : Table κ α) : List κ := t.entries.map (·.1)
def values (t : Table κ α) : List α := t.entries.map (·.2)
def size (t : Table κ α) : Nat := t.entries.length
def isEmpty (t : Table κ α) : Bool := t.entries.isEmpty

theorem look_put [Std.LawfulEqOrd κ] (k q : κ) (v : α) (es : List (κ × α)) :
    look q (put k v es) = if compare q k = .eq then some v else look q es := by
  induction es with
  | nil => simp [put, look]
  | cons x rest ih =>
    obtain ⟨k', v'⟩ := x
    simp only [put]
    split
    · simp [look]
    · rename_i heq
      have := Std.LawfulEqOrd.eq_of_compare heq
      subst this
      simp only [look]
      split <;> rfl
    · rename_i hgt
      simp only [look, ih]
      by_cases hqk : compare q k = .eq
      · have := Std.LawfulEqOrd.eq_of_compare hqk
        subst this
        simp [hgt]
      · simp [hqk]

@[simp] theorem find?_empty (q : κ) : (empty : Table κ α).find? q = none := rfl

@[simp] theorem find?_insert [Std.TransOrd κ] [Std.LawfulEqOrd κ] (t : Table κ α) (k q : κ) (v : α) :
    (t.insert k v).find? q = if compare q k = .eq then some v else t.find? q :=
  look_put k q v t.entries

theorem look_eq_some_iff [Std.LawfulEqOrd κ] {q : κ} {v : α} {es : List (κ × α)}
    (h : es.Pairwise fun a b => compare a.1 b.1 = .lt) :
    look q es = some v ↔ (q, v) ∈ es := by
  induction es with
  | nil => simp [look]
  | cons x rest ih =>
    obtain ⟨k', v'⟩ := x
    obtain ⟨hhead, hrest⟩ := List.pairwise_cons.1 h
    simp only [look, List.mem_cons, Prod.mk.injEq]
    split
    · rename_i heq
      have := Std.LawfulEqOrd.eq_of_compare heq
      subst this
      constructor
      · rintro ⟨rfl⟩
        exact .inl ⟨rfl, rfl⟩
      · rintro (⟨-, rfl⟩ | hm)
        · rfl
        · simpa using hhead _ hm
    · rename_i hne
      rw [ih hrest]
      constructor
      · exact .inr
      · rintro (⟨rfl, -⟩ | hm)
        · simp at hne
        · exact hm

theorem find?_eq_some_iff [Std.LawfulEqOrd κ] {t : Table κ α} {q : κ} {v : α} :
    t.find? q = some v ↔ (q, v) ∈ t.entries :=
  look_eq_some_iff t.sorted

theorem entries_eq_of_find? [Std.TransOrd κ] [Std.LawfulEqOrd κ] {es fs : List (κ × α)}
    (he : es.Pairwise fun a b => compare a.1 b.1 = .lt)
    (hf : fs.Pairwise fun a b => compare a.1 b.1 = .lt)
    (h : ∀ q, look q es = look q fs) : es = fs := by
  have mem : ∀ e, e ∈ es ↔ e ∈ fs := fun e => by
    rw [← look_eq_some_iff (q := e.1) (v := e.2) he, h, look_eq_some_iff hf]
  induction es generalizing fs with
  | nil =>
    cases fs with
    | nil => rfl
    | cons x _ => simpa using mem x
  | cons x rest ih =>
    cases fs with
    | nil => simpa using mem x
    | cons y rest' =>
      obtain ⟨hx, hrest⟩ := List.pairwise_cons.1 he
      obtain ⟨hy, hrest'⟩ := List.pairwise_cons.1 hf
      have hxy : x = y := by
        rcases List.mem_cons.1 ((mem x).1 List.mem_cons_self) with hxy | hxin
        · exact hxy
        rcases List.mem_cons.1 ((mem y).2 List.mem_cons_self) with hyx | hyin
        · exact hyx.symm
        have h1 := hy x hxin
        have h2 := hx y hyin
        rw [← Std.OrientedCmp.gt_iff_lt] at h2
        simp [h1] at h2
      subst hxy
      have hne : ∀ {l : List (κ × α)}, (∀ e ∈ l, compare x.1 e.1 = .lt) → x ∉ l := by
        intro l hl hm
        simpa using hl x hm
      have mem' : ∀ e, e ∈ rest ↔ e ∈ rest' := fun e => by
        constructor
        · intro hm
          rcases List.mem_cons.1 ((mem e).1 (List.mem_cons_of_mem _ hm)) with rfl | h'
          · exact absurd hm (hne hx)
          · exact h'
        · intro hm
          rcases List.mem_cons.1 ((mem e).2 (List.mem_cons_of_mem _ hm)) with rfl | h'
          · exact absurd hm (hne hy)
          · exact h'
      rw [ih hrest hrest' (fun q => Option.ext fun v => ?_) mem']
      rw [look_eq_some_iff hrest, look_eq_some_iff hrest', mem']

theorem ext_find? [Std.TransOrd κ] [Std.LawfulEqOrd κ] {s t : Table κ α}
    (h : ∀ q, s.find? q = t.find? q) : s = t := by
  cases s with
  | mk es hs =>
    cases t with
    | mk fs ht =>
      cases entries_eq_of_find? hs ht h
      rfl

theorem look_filter [Std.LawfulEqOrd κ] {q : κ} {p : κ → α → Bool} {es : List (κ × α)}
    (h : es.Pairwise fun a b => compare a.1 b.1 = .lt) :
    look q (es.filter fun e => p e.1 e.2) = (look q es).filter (p q) := by
  apply Option.ext
  intro v
  rw [look_eq_some_iff (h.filter _), List.mem_filter, Option.mem_def.symm.trans Option.mem_filter_iff,
    Option.mem_def, look_eq_some_iff h]

@[simp] theorem find?_filter [Std.LawfulEqOrd κ] (t : Table κ α) (p : κ → α → Bool) (q : κ) :
    (t.filter p).find? q = (t.find? q).filter (p q) :=
  look_filter t.sorted

@[simp] theorem find?_erase [Std.LawfulEqOrd κ] (t : Table κ α) (k q : κ) :
    (t.erase k).find? q = if compare q k = .eq then none else t.find? q := by
  rw [erase, find?_filter]
  by_cases h : compare q k = .eq
  · have := Std.LawfulEqOrd.eq_of_compare h
    subst this
    cases t.find? q <;> simp
  · have hk : compare k q ≠ .eq := fun hk => by
      have := Std.LawfulEqOrd.eq_of_compare hk
      subst this
      simp at h
    cases t.find? q <;> simp [h, hk]

end Table

end Vigil
