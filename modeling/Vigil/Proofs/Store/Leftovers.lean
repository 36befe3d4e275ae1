import Vigil.Proofs.Store.OpenCalls

/-!
# Rows that are left behind

While calls on the instances go on side by side, each row of the store is that of a cached
instance or is yet to be deleted (`Traffic.Keeps`), with one exception. A call that saves
everything goes by what was cached when it began. An instance may since have been dropped, and
its row deleted, when the call comes to save it; then the row is there again, and no one is
going to delete it (`SavedLate`). Nothing else leaves a row behind (`Traffic.leftover_of_run`).
-/

namespace Vigil

/-- The instance of the row is cached. -/
def Cache.covers (c : Cache) (row : Row) : Bool := (c.get? row.ruleKey row.labels.id).isSome

/-! ## What a call drops -/

/-- A call that begins changes no name. An instance that was there is there afterwards, unless
its row is to be deleted. -/
theorem StateCall.enter_frame {cache : Cache} (h : cache.Named) (settings : StateSettings)
    (now : Moment) (c : StateCall) :
    (c.enter settings now cache).2.Named ∧
      ∀ k id, (cache.get? k id).isSome = true →
        ((c.enter settings now cache).2.get? k id).isSome = true ∨
          ∃ i ∈ (c.enter settings now cache).1.dropping, i.NamedAs k id := by
  cases c with
  | setClock t => exact ⟨h, fun k id hid => Or.inl hid⟩
  | process r vs extra =>
      obtain ⟨hnamed, hkept⟩ := Cache.round_frame h settings now r vs extra
      refine ⟨hnamed, fun k id hid => (hkept k id hid).imp_right ?_⟩
      rintro ⟨i, ⟨rd, hround, hi⟩, hnames⟩
      refine ⟨i, ?_, hnames⟩
      show i ∈ (Due.ofRound (cache.round settings now r vs extra).1).dropping
      rw [hround]
      exact hi
  | markSent sent =>
      refine ⟨Cache.named_markSent h sent, fun k id hid => Or.inl ?_⟩
      show ((cache.markSent sent).get? k id).isSome = true
      rw [Cache.get?_markSent, Option.isSome_map]
      exact hid
  | persist => exact ⟨h, fun k id hid => Or.inl hid⟩
  | reset k rule =>
      refine ⟨Cache.named_removeRule h k, fun q id hid => ?_⟩
      by_cases hq : q = k
      · subst hq
        obtain ⟨i, hi⟩ := Option.isSome_iff_exists.1 hid
        exact Or.inr ⟨i, Table.mem_values_iff.2 ⟨id, hi⟩, h q id i hi⟩
      · refine Or.inl ?_
        show ((cache.setRule k ∅).get? q id).isSome = true
        rw [Cache.get?_setRule, if_neg hq]
        exact hid

/-- A saved row may take the place of another. No other row is new. -/
theorem Store.mem_of_mem_rows_save {s : Store} {row r : Row} (h : r ∈ (s.save row).rows) :
    r = row ∨ r ∈ s.rows := by
  rcases s.save_cases row with ⟨before, e, after, hfiled, -, hsaved⟩ | ⟨-, hsaved⟩
  · simp only [rows, hsaved, hfiled, List.map_append, List.map_cons, List.mem_append,
      List.mem_cons] at h ⊢
    rcases h with h | rfl | h
    · exact Or.inr (Or.inl h)
    · exact Or.inl rfl
    · exact Or.inr (Or.inr (Or.inr h))
  · simp only [rows, hsaved, List.map_append, List.mem_append] at h ⊢
    rcases h with h | h
    · exact Or.inr h
    · exact Or.inl (List.mem_singleton.1 h)

namespace Traffic

variable {ι : Type} {t : Traffic ι}

/-- The instance at the address is cached, or its row is yet to be deleted. -/
def Keeps (t : Traffic ι) (a : Address) : Prop :=
  (t.shared.cache.get? a.1 a.2).isSome = true ∨
    ∃ i ∈ t.dropping, (Row.ofInstance i).address = a

theorem keeps_begin (hnamed : t.shared.cache.Named) (caller : ι) (c : StateCall) {a : Address}
    (h : t.Keeps a) : (t.step (.begin caller c)).Keeps a := by
  obtain ⟨hdue, hbegin⟩ := t.shared.begin_frame c
  unfold Keeps
  rw [dropping_begin, hdue]
  rcases h with hcached | ⟨i, hi, haddress⟩
  · obtain ⟨-, hkept⟩ := c.enter_frame hnamed t.shared.state t.shared.clock
    rcases hkept a.1 a.2 hcached with hcached | ⟨i, hi, hnames⟩
    · refine Or.inl ?_
      show ((t.shared.begin c).2.cache.get? a.1 a.2).isSome = true
      rw [hbegin.cache]
      exact hcached
    · exact Or.inr ⟨i, List.mem_append_right _ hi, Prod.ext hnames.ruleKey hnames.labels⟩
  · exact Or.inr ⟨i, List.mem_append_left _ hi, haddress⟩

/-- Only what is deleted is no longer kept. -/
theorem keeps_of_perm {t' : Traffic ι} (hcache : t'.shared.cache = t.shared.cache)
    {gone : List Instance} (hperm : t.dropping.Perm (gone ++ t'.dropping)) {a : Address}
    (hgone : ∀ i ∈ gone, (Row.ofInstance i).address ≠ a) (h : t.Keeps a) : t'.Keeps a := by
  rcases h with hcached | ⟨i, hi, haddress⟩
  · exact Or.inl (hcache ▸ hcached)
  · refine Or.inr ⟨i, ?_, haddress⟩
    exact (List.mem_append.1 (hperm.mem_iff.1 hi)).resolve_left fun hi => hgone i hi haddress

/-! ## Where a call comes from -/

/-- The call numbered `n` began as `call` after the moves `before`, and what it has yet to save
is what it was to save then. -/
def BeganAs (d : Shared) (moves : List (Move ι)) (n : Nat) (caller : ι) (c : OpenCall) : Prop :=
  ∃ before call between, moves = before ++ .begin caller call :: between ∧
    (d.traffic before).calls.length = n ∧
    c.due.saving ⊆ (call.enter (d.traffic before).shared.state (d.traffic before).shared.clock
      (d.traffic before).shared.cache).1.saving

variable {d : Shared} {moves : List (Move ι)} {n : Nat} {caller : ι} {c c' : OpenCall}

theorem BeganAs.snoc (h : BeganAs d moves n caller c) (hsaving : c'.due.saving ⊆ c.due.saving)
    (m : Move ι) : BeganAs d (moves ++ [m]) n caller c' := by
  obtain ⟨before, call, between, rfl, hlength, hstart⟩ := h
  refine ⟨before, call, between ++ [m], ?_, hlength, List.Subset.trans hsaving hstart⟩
  rw [List.append_assoc, List.cons_append]

theorem getElem?_concat_cases {l : List α} {x y : α} {n : Nat} (h : (l ++ [x])[n]? = some y) :
    l[n]? = some y ∨ n = l.length ∧ x = y := by
  rw [List.getElem?_append] at h
  split at h
  · exact Or.inl h
  · rename_i hge
    obtain ⟨hn, heq⟩ := List.getElem?_eq_some_iff.1 h
    rw [List.length_singleton] at hn
    exact Or.inr ⟨by omega, by simpa using heq⟩

theorem beganAs_of_mem (h : (d.traffic moves).calls[n]? = some (caller, c)) :
    BeganAs d moves n caller c := by
  induction moves using List.reverseRecOn generalizing n caller c with
  | nil => cases h
  | append_singleton moves m ih =>
      rw [Shared.traffic_snoc] at h
      cases m with
      | begin who call =>
          rcases getElem?_concat_cases h with h | ⟨hn, heq⟩
          · exact (ih h).snoc (List.Subset.refl _) _
          · obtain ⟨rfl, rfl⟩ := Prod.mk.inj heq
            refine ⟨moves, call, [], rfl, hn.symm, ?_⟩
            rw [((d.traffic moves).shared.begin_frame call).1]
            exact List.Subset.refl _
      | answer n' which =>
          rcases (d.traffic moves).answer_cases n' which with
            hsame | ⟨who, c₀, c', hn', hcalls, hticks⟩
          · rw [hsame] at h
            exact (ih h).snoc (List.Subset.refl _) _
          · rw [hcalls] at h
            by_cases hn : n' = n
            · subst hn
              rw [List.getElem?_set_self (List.getElem?_eq_some_iff.1 hn').1] at h
              obtain ⟨rfl, rfl⟩ := Prod.mk.inj (Option.some.inj h)
              exact (ih hn').snoc hticks.saving_suffix.subset _
            · rw [List.getElem?_set_ne hn] at h
              exact (ih h).snoc (List.Subset.refl _) _

/-! ## Leftovers -/

/-- The row was saved by a call that began when its instance was still cached. When it was
saved, the instance was cached no more, and nothing was going to delete the row. -/
inductive SavedLate (d : Shared) : List (Move ι) → Row → Prop where
  | mk {before : List (Move ι)} {caller : ι} {between : List (Move ι)} {which : Nat}
    {after : List (Move ι)} {c : OpenCall} {i : Instance} {rest : List Instance}
    (hsnapshot : i ∈ (d.traffic before).shared.cache.snapshot)
    (hcall : (d.traffic (before ++ .begin caller .persist :: between)).calls[
      (d.traffic before).calls.length]? = some (caller, c))
    (hsaving : c.due.saving = i :: rest)
    (hgone : ¬ (d.traffic (before ++ .begin caller .persist :: between)).Keeps
      (Row.ofInstance i).address) :
    SavedLate d (before ++ .begin caller .persist :: between ++
      .answer (d.traffic before).calls.length which :: after) (.ofInstance i)

theorem SavedLate.snoc {row : Row} (h : SavedLate d moves row) (m : Move ι) :
    SavedLate d (moves ++ [m]) row := by
  cases h with
  | mk hsnapshot hcall hsaving hgone =>
      rw [List.append_assoc, List.cons_append]
      exact .mk hsnapshot hcall hsaving hgone

/-- The instances are under their names, and the rows under the digests of their labels. Each row
is that of an instance that is kept, or was saved late. -/
structure Traced (d : Shared) (moves : List (Move ι)) : Prop where
  named : (d.traffic moves).shared.cache.Named
  digest : ∀ row ∈ (d.traffic moves).shared.store.rows, row.hash = row.labels.id
  kept : ∀ row ∈ (d.traffic moves).shared.store.rows,
    (d.traffic moves).Keeps row.address ∨ SavedLate d moves row

theorem Traced.begin (h : Traced d moves) (caller : ι) (call : StateCall) :
    Traced d (moves ++ [.begin caller call]) := by
  have hbegin := ((d.traffic moves).shared.begin_frame call).2
  have hrows : (d.traffic (moves ++ [.begin caller call])).shared.store =
      (d.traffic moves).shared.store := by
    rw [Shared.traffic_snoc]
    exact hbegin.store
  refine ⟨?_, by rw [hrows]; exact h.digest, fun row hrow => ?_⟩
  · rw [Shared.traffic_snoc]
    show ((d.traffic moves).shared.begin call).2.cache.Named
    rw [hbegin.cache]
    exact (call.enter_frame h.named _ _).1
  · rw [hrows] at hrow
    refine (h.kept row hrow).imp (fun hkeeps => ?_) fun hlate => hlate.snoc _
    rw [Shared.traffic_snoc]
    exact keeps_begin h.named caller call hkeeps

/-- A row that is saved for an instance that nothing keeps is saved late. -/
theorem savedLate_of_saving (h : (d.traffic moves).calls[n]? = some (caller, c)) {i : Instance}
    {rest : List Instance} (hsaving : c.due.saving = i :: rest)
    (hgone : ¬ (d.traffic moves).Keeps (Row.ofInstance i).address) (which : Nat) :
    SavedLate d (moves ++ [.answer n which]) (.ofInstance i) := by
  obtain ⟨before, call, between, rfl, rfl, hstart⟩ := beganAs_of_mem h
  obtain ⟨rfl, hsnapshot⟩ :=
    StateCall.mem_saving_enter (hstart (hsaving ▸ List.mem_cons_self))
  exact .mk hsnapshot h hsaving hgone

theorem Traced.answer (h : Traced d moves) (n which : Nat) :
    Traced d (moves ++ [.answer n which]) := by
  have hlater : ∀ row, SavedLate d moves row → SavedLate d (moves ++ [.answer n which]) row :=
    fun row hlate => hlate.snoc _
  have hstep := d.traffic_snoc moves (.answer n which)
  rcases (d.traffic moves).answer_cases n which with hsame | ⟨caller, c, c', hn, hcalls, hticks⟩
  · rw [hsame] at hstep
    exact ⟨hstep ▸ h.named, hstep ▸ h.digest,
      hstep ▸ fun row hrow => (h.kept row hrow).imp_right (hlater row)⟩
  rw [← hstep] at hcalls hticks
  cases hticks with
  | @deleted i rest hdropping hdue hshared =>
      have hperm := dropping_set hn hcalls [i] (by rw [hdue]; exact hdropping)
      refine ⟨hshared.cache ▸ h.named, fun row hrow => ?_, fun row hrow => ?_⟩
      · rw [hshared.store] at hrow
        exact h.digest row (Store.mem_rows_delete.1 hrow).1
      · rw [hshared.store] at hrow
        obtain ⟨hrow, hne⟩ := Store.mem_rows_delete.1 hrow
        refine (h.kept row hrow).imp (keeps_of_perm hshared.cache hperm ?_) (hlater row)
        exact List.forall_mem_singleton.2 hne.symm
  | @saved i rest hsaving hdue hshared =>
      have hperm := dropping_set hn hcalls [] (by rw [hdue]; exact List.Perm.refl _)
      have hkeeps : ∀ a, (d.traffic moves).Keeps a →
          (d.traffic (moves ++ [.answer n which])).Keeps a := fun a =>
        keeps_of_perm hshared.cache hperm fun i hi => absurd hi List.not_mem_nil
      refine ⟨hshared.cache ▸ h.named, fun row hrow => ?_, fun row hrow => ?_⟩
      · rw [hshared.store] at hrow
        rcases Store.mem_of_mem_rows_save hrow with rfl | hrow
        · rfl
        · exact h.digest row hrow
      · rw [hshared.store] at hrow
        rcases Store.mem_of_mem_rows_save hrow with rfl | hrow
        · by_cases hkept : (d.traffic moves).Keeps (Row.ofInstance i).address
          · exact Or.inl (hkeeps _ hkept)
          · exact Or.inr (savedLate_of_saving hn hsaving hkept which)
        · exact (h.kept row hrow).imp (hkeeps _) (hlater row)

theorem traced {d : Shared} (hnamed : d.cache.Named)
    (hrows : ∀ row ∈ d.store.rows, row.hash = row.labels.id ∧ d.cache.covers row = true)
    (moves : List (Move ι)) : Traced d moves := by
  induction moves using List.reverseRecOn with
  | nil =>
      refine ⟨hnamed, fun row hrow => (hrows row hrow).1, fun row hrow => Or.inl (Or.inl ?_)⟩
      obtain ⟨hhash, hcached⟩ := hrows row hrow
      exact (congrArg (fun hash => (d.cache.get? row.ruleKey hash).isSome) hhash).trans hcached
  | append_singleton moves m ih =>
      cases m with
      | begin caller call => exact ih.begin caller call
      | answer n which => exact ih.answer n which

/-- **Rows that are left behind.** Calls on the instances begin while others wait for the store,
which answers them in any order and fails none. When all have returned, the instance of each row
is cached, or the row was saved late. At the start the instance of each row is cached, and the
row is filed under the digest of its labels. -/
theorem leftover_of_run {d : Shared} (hnamed : d.cache.Named)
    (hrows : ∀ row ∈ d.store.rows, row.hash = row.labels.id ∧ d.cache.covers row = true)
    {moves : List (Move ι)} (hover : (d.traffic moves).isOver = true) :
    ∀ row ∈ (d.traffic moves).shared.store.rows,
      (d.traffic moves).shared.cache.covers row = true ∨ SavedLate d moves row := by
  intro row hrow
  obtain ⟨-, hdigest, hkept⟩ := traced hnamed hrows moves
  refine (hkept row hrow).imp_left ?_
  rintro (hcached | ⟨i, hi, -⟩)
  · exact (congrArg (fun hash =>
      ((d.traffic moves).shared.cache.get? row.ruleKey hash).isSome) (hdigest row hrow)).symm.trans
        hcached
  · rw [dropping_eq_nil hover] at hi
    exact absurd hi List.not_mem_nil

/-- One instance with its row. -/
def oneSaved : Shared :=
  ({ clock := .epoch } : Shared).calls
    [.process { uid := "a" } (Shared.found [("web", .alerting)] 0) ∅, .persist]

/-- While everything is saved again the rule is reset, and the store answers that first. -/
def overtaken : List (Move Unit) :=
  [.begin () .persist, .begin () (.reset ⟨1, "a"⟩ none), .answer 1 0, .answer 0 0]

theorem named_oneSaved : oneSaved.cache.Named :=
  (Shared.mirrors_calls ⟨Cache.named_empty, Store.tidy_empty,
    fun _ hrow => absurd hrow List.not_mem_nil⟩ _).1.named

theorem leftover_of_run_overtaken :
    ∃ row ∈ (oneSaved.traffic overtaken).shared.store.rows, SavedLate oneSaved overtaken row := by
  have hrows : ∀ row ∈ oneSaved.store.rows,
      row.hash = row.labels.id ∧ oneSaved.cache.covers row = true := by decide +kernel
  have hleft : (oneSaved.traffic overtaken).shared.store.rows.map
      (oneSaved.traffic overtaken).shared.cache.covers = [false] := by decide +kernel
  obtain ⟨row, hrow, hlost⟩ := List.mem_map.1 (hleft ▸ List.mem_singleton_self false)
  have hover : (oneSaved.traffic overtaken).isOver = true := by decide +kernel
  refine ⟨row, hrow, (leftover_of_run named_oneSaved hrows hover row hrow).resolve_left ?_⟩
  rw [hlost]
  exact Bool.false_ne_true

/-- The store has the row under another digest than that of its labels. -/
def foreignSaved : Shared :=
  { oneSaved with
    store := ⟨oneSaved.store.filed.map fun e => (e.1, { e.2 with hash := "legacy" })⟩ }

/-- **A row without its instance.** Every row has its instance at the start, and none at the end:
a reset overtakes the call that saves everything. It takes no overtaking if a row has another
digest than its labels. -/
theorem left_behind :
    (oneSaved.cache.Named ∧
      (∀ row ∈ oneSaved.store.rows, row.hash = row.labels.id ∧ oneSaved.cache.covers row = true) ∧
      (oneSaved.traffic overtaken).isOver = true ∧
      (oneSaved.traffic overtaken).shared.store.rows.map
        (oneSaved.traffic overtaken).shared.cache.covers = [false]) ∧
    (∀ row ∈ foreignSaved.store.rows, foreignSaved.cache.covers row = true) ∧
      (foreignSaved.calls [.persist, .reset ⟨1, "a"⟩ none]).store.rows.map
        (foreignSaved.calls [.persist, .reset ⟨1, "a"⟩ none]).cache.covers = [false] :=
  ⟨⟨named_oneSaved, by decide +kernel, by decide +kernel, by decide +kernel⟩, by decide +kernel,
    by decide +kernel⟩

end Traffic

end Vigil
