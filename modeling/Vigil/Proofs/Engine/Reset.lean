import Vigil.Proofs.Cache.Confined
import Vigil.Proofs.Engine.Effects
import Vigil.Proofs.Engine.Record
import Vigil.Proofs.Store.Neighbours

/-!
# A reset in full

A routine that clears its rule drops the instances at once, asks the store to delete the row
of each, and goes on when the last has been answered for, whatever the answers are and in
whatever order they come. What it leaves then is one equation (`Worker.reset_of_clear`): no
instance of the rule, a deletion for each that there was, a closing annotation for each that
was alerting if the rule is known, and one batch that ends the active ones. Nothing is left
for a second reset to do.
-/

namespace Vigil

namespace Shared

/-- The store has answered for the rows of some instances. -/
def served (d : Shared) (xs : List (Instance × Bool)) : Shared :=
  d.recorded (d.store.deleteAll ((xs.filter (·.2)).map (·.1)))
    (xs.map fun x => d.deletion x.1 x.2)

theorem served_nil (d : Shared) : d.served [] = d := d.recorded_nil

theorem served_snoc (d : Shared) (xs : List (Instance × Bool)) (i : Instance) (ok : Bool) :
    (d.served xs).deleteRow i ok = d.served (xs ++ [(i, ok)]) := by
  unfold served
  rw [deleteRow_eq, recorded_recorded, List.map_append, List.filter_append, List.map_append,
    Store.deleteAll_append]
  cases ok <;> rfl

/-- The annotations that close the alerting ones of the instances that were removed. -/
def farewells (d : Shared) (rule : Option Rule) (removed : List Instance) : List Entry :=
  rule.toList.flatMap fun r => removed.flatMap (d.farewell r d.clock)

theorem farewells_nil (d : Shared) (rule : Option Rule) : d.farewells rule [] = [] := by
  unfold farewells
  cases rule <;> rfl

/-- What a reset of rule `k` leaves, before anything is sent, if the store answers as `xs` say. -/
def wiped (d : Shared) (k : RuleKey) (rule : Option Rule) (xs : List (Instance × Bool)) : Shared :=
  { d with
    cache := (d.cache.removeRule k).2
    store := d.store.deleteAll ((xs.filter (·.2)).map (·.1))
    journal := d.journal ++ (xs.map fun x => d.deletion x.1 x.2) ++
      d.farewells rule (d.cache.ofRule k).values }

theorem batches_recorded (d : Shared) (st : Store) {es : List Entry}
    (hes : ∀ e ∈ es, e.event.batch? = none) : (d.recorded st es).batches = d.batches := by
  unfold recorded batches
  rw [List.filterMap_append, List.filterMap_eq_nil_iff.2 hes, List.append_nil]

/-- Neither deletions nor annotations are sent. -/
theorem batches_wiped (d : Shared) (k : RuleKey) (rule : Option Rule)
    (xs : List (Instance × Bool)) : (d.wiped k rule xs).batches = d.batches := by
  have hwiped : (d.wiped k rule xs).batches =
      (d.recorded d.store ((xs.map fun x => d.deletion x.1 x.2) ++
        d.farewells rule (d.cache.ofRule k).values)).batches := by
    unfold wiped recorded batches
    rw [List.append_assoc]
  rw [hwiped, batches_recorded]
  simp only [List.mem_append, List.mem_map, farewells, List.mem_flatMap]
  rintro e (⟨x, -, rfl⟩ | ⟨r, -, i, -, he⟩)
  · rfl
  · unfold farewell at he
    split at he
    · rw [List.mem_singleton.1 he]
      rfl
    · cases he

end Shared

theorem Erasure.close_eq (e : Erasure) (d : Shared) :
    e.close d = d.recorded d.store (d.farewells e.rule e.removed) := by
  unfold close Shared.farewells
  cases e.rule with
  | none => exact d.recorded_nil.symm
  | some r =>
      rw [Option.toList_some, List.flatMap_singleton]
      exact d.foldl_annotateClosing r d.clock e.removed

namespace Cache

/-- To drop a rule that has no instances is to do nothing. -/
theorem removeRule_idem (c : Cache) (k : RuleKey) :
    (c.removeRule k).2.removeRule k = ([], (c.removeRule k).2) := by
  show (((c.setRule k ∅).ofRule k).values, (c.setRule k ∅).setRule k ∅) = _
  rw [ofRule_setRule, setRule_setRule]
  rfl

end Cache

namespace Worker

variable {root : Option StopReason} {w : Worker} {d : Shared} {next : Resume}
  {removed rest : List Instance} {answers : List (Nat × Bool)} {xs : List (Instance × Bool)}
  {s : Worker × Shared}

/-- The store answers one call after the other. -/
def serve? (root : Option StopReason) (s : Worker × Shared) (answers : List (Nat × Bool)) :
    Option (Worker × Shared) :=
  answers.foldlM (fun s a => s.1.step? root (.stored a.1 a.2) s.2) s

theorem serve?_snoc (answers : List (Nat × Bool)) (a : Nat × Bool) :
    serve? root s (answers ++ [a]) =
      (serve? root s answers).bind fun s => s.1.step? root (.stored a.1 a.2) s.2 :=
  Desk.foldlM_concat _ s answers a

/-- The instances are removed, and the rows of `rest` are waited for. -/
def awaiting (w : Worker) (removed rest : List Instance) (next : Resume) : Worker :=
  { w with phase := .erasing ⟨w.lastRule, removed, rest⟩ next }

theorem awaiting_of_phase (hphase : w.phase = .erasing ⟨w.lastRule, removed, rest⟩ next) :
    w.awaiting removed rest next = w := by
  unfold awaiting
  rw [← hphase]

theorem resume_awaiting (w : Worker) (removed rest : List Instance) (next : Resume) (d : Shared) :
    (w.awaiting removed rest next).resume next d = w.resume next d := by
  cases next with
  | exit => rfl
  | adopt version => rfl
  | evaluate e => rfl

theorem closeAlerts_awaiting (w : Worker) (removed rest : List Instance) (next : Resume)
    (d : Shared) :
    (w.awaiting removed rest next).closeAlerts removed next d =
      w.closeAlerts removed next d := by
  rw [closeAlerts_eq, closeAlerts_eq, resume_awaiting]
  rfl

/-- To close alerts adds to the record. -/
theorem mem_journal_closeAlerts {e : Entry} (he : e ∈ d.journal) (w : Worker)
    (removed : List Instance) (next : Resume) :
    e ∈ (w.closeAlerts removed next d).2.journal := by
  rw [closeAlerts_eq]
  split
  · cases next with
    | exit => exact List.mem_append_left _ he
    | adopt version => exact he
    | evaluate e => exact he
  · exact List.mem_append_left _ he

/-- Where the routine waits for rows, each of them may be answered for. -/
theorem isSome_step_awaiting (which : Nat) (ok : Bool) :
    ((w.awaiting removed rest next).step? root (.stored which ok) d).isSome = true ↔
      which < rest.length := by
  unfold step? awaiting
  dsimp only
  split
  · rename_i hwhich
    refine iff_of_true ?_ hwhich
    split <;> rfl
  · rename_i hwhich
    exact iff_of_false Bool.false_ne_true hwhich

/-- **One answer.** It is for one of the rows that are waited for. After the last of them the
annotations are made, and then the alerts are closed. -/
theorem step_awaiting {which : Nat} {ok : Bool} (hperm : (xs.map Prod.fst ++ rest).Perm removed)
    (h : (w.awaiting removed rest next).step? root (.stored which ok) (d.served xs) = some s) :
    ∃ i rest', rest[which]? = some i ∧
      ((xs ++ [(i, ok)]).map Prod.fst ++ rest').Perm removed ∧
      s = if rest' = [] then
          w.closeAlerts removed next ((d.served (xs ++ [(i, ok)])).recorded
            (d.served (xs ++ [(i, ok)])).store (d.farewells w.lastRule removed))
        else (w.awaiting removed rest' next, d.served (xs ++ [(i, ok)])) := by
  have hwhich : which < rest.length :=
    (isSome_step_awaiting which ok).1 (Option.isSome_of_eq_some h)
  refine ⟨rest[which], rest.eraseIdx which, List.getElem?_eq_getElem hwhich, ?_, ?_⟩
  · rw [List.map_append, List.append_assoc]
    exact ((List.getElem_cons_eraseIdx_perm hwhich).append_left _).trans hperm
  unfold step? awaiting at h
  dsimp only at h
  rw [if_pos hwhich] at h
  unfold Erasure.answer at h
  rw [List.getElem?_eq_getElem hwhich] at h
  simp only [Erasure.isDone, List.isEmpty_iff, Shared.served_snoc] at h
  by_cases hlast : rest.eraseIdx which = []
  · rw [if_pos hlast, if_pos hlast] at h
    rw [if_pos hlast, ← closeAlerts_awaiting w removed rest, ← Option.some.inj h, Erasure.close_eq]
    rfl
  · rw [if_neg hlast, if_neg hlast] at h
    rw [if_neg hlast, ← Option.some.inj h]
    rfl

/-- What has been answered for and what is waited for are what was removed. -/
theorem length_of_perm (hperm : (xs.map Prod.fst ++ rest).Perm removed)
    (hoks : xs.map Prod.snd = answers.map Prod.snd) :
    answers.length + rest.length = removed.length := by
  have hlength := congrArg List.length hoks
  rw [← hperm.length_eq, List.length_append, List.length_map]
  rw [List.length_map, List.length_map] at hlength
  rw [hlength]

/-- **The answers before the last.** -/
theorem awaiting_of_serve (h : serve? root (w.awaiting removed removed next, d) answers = some s)
    (hlength : answers.length < removed.length) :
    ∃ xs rest, (xs.map Prod.fst ++ rest).Perm removed ∧ xs.map Prod.snd = answers.map Prod.snd ∧
      s = (w.awaiting removed rest next, d.served xs) := by
  induction answers using List.reverseRecOn generalizing s with
  | nil => exact ⟨[], removed, .refl _, rfl, by rw [← Option.some.inj h, Shared.served_nil]⟩
  | append_singleton answers a ih =>
      rw [serve?_snoc] at h
      obtain ⟨s, hs, hstep⟩ := Option.bind_eq_some_iff.1 h
      obtain ⟨xs, rest, hperm, hoks, rfl⟩ := ih hs (by rw [List.length_append] at hlength; omega)
      obtain ⟨i, rest', -, hperm, rfl⟩ := step_awaiting hperm hstep
      have hoks' : (xs ++ [(i, a.2)]).map Prod.snd = (answers ++ [a]).map Prod.snd := by
        rw [List.map_append, hoks, List.map_append]
        rfl
      have hrest := length_of_perm hperm hoks'
      have hmore : rest' ≠ [] := by
        rintro rfl
        exact absurd hrest (Nat.ne_of_lt hlength)
      exact ⟨_, rest', hperm, hoks', if_neg hmore⟩

/-- **All answers.** -/
theorem closed_of_serve (h : serve? root (w.awaiting removed removed next, d) answers = some s)
    (hlength : answers.length = removed.length) (hne : removed ≠ []) :
    ∃ xs, (xs.map Prod.fst).Perm removed ∧ xs.map Prod.snd = answers.map Prod.snd ∧
      s = w.closeAlerts removed next
        ((d.served xs).recorded (d.served xs).store (d.farewells w.lastRule removed)) := by
  induction answers using List.reverseRecOn with
  | nil => exact absurd (List.length_eq_zero_iff.1 hlength.symm) hne
  | append_singleton answers a =>
      rw [serve?_snoc] at h
      obtain ⟨s, hs, hstep⟩ := Option.bind_eq_some_iff.1 h
      have hbefore : answers.length < removed.length := by
        rw [← hlength, List.length_append]
        exact Nat.lt_succ_self _
      obtain ⟨xs, rest, hperm, hoks, rfl⟩ := awaiting_of_serve hs hbefore
      obtain ⟨i, rest', -, hperm, rfl⟩ := step_awaiting hperm hstep
      have hoks' : (xs ++ [(i, a.2)]).map Prod.snd = (answers ++ [a]).map Prod.snd := by
        rw [List.map_append, hoks, List.map_append]
        rfl
      have hrest := length_of_perm hperm hoks'
      obtain rfl : rest' = [] := List.length_eq_zero_iff.1 (by omega)
      rw [List.append_nil] at hperm
      exact ⟨_, hperm, hoks', if_pos rfl⟩

/-- What is left to reset after a reset. -/
theorem clear_of_cleared {c : Cache} {k : RuleKey} (hkey : w.key = k)
    (hcache : d.cache = (c.removeRule k).2) : w.clear next d = w.resume next d := by
  subst hkey
  have herase : (d.erase w.key w.lastRule).2 = d := by
    show { d with cache := (d.cache.removeRule w.key).2 } = d
    rw [hcache, c.removeRule_idem]
    rw [← hcache]
  have hnone : (d.cache.ofRule w.key).values = [] := by
    rw [hcache]
    exact congrArg Prod.fst (c.removeRule_idem w.key)
  rw [clear_eq, if_pos hnone, herase]

theorem clear_of_removed (hne : (d.cache.ofRule w.key).values ≠ []) :
    w.clear next d =
      (w.awaiting (d.cache.ofRule w.key).values (d.cache.ofRule w.key).values next,
        { d with cache := (d.cache.removeRule w.key).2 }) := by
  rw [clear_eq, if_neg hne]
  rfl

/-- Where there is nothing to remove, a reset closes nothing. -/
theorem clear_of_none (hnone : (d.cache.ofRule w.key).values = []) :
    w.clear next d = w.closeAlerts (d.cache.ofRule w.key).values next
      (d.wiped w.key w.lastRule []) := by
  have hwiped : d.wiped w.key w.lastRule [] = (d.erase w.key w.lastRule).2 := by
    unfold Shared.wiped
    rw [hnone, Shared.farewells_nil, List.map_nil, List.append_nil, List.append_nil]
    rfl
  have hclosing : ∀ now url, Alert.closing [] now url = [] := fun _ _ => rfl
  rw [clear_eq, if_pos hnone, hnone, closeAlerts_eq, hclosing, if_pos rfl, hwiped]

/-- **A reset.** To clear a rule takes an answer of the store for each instance that it had, in
any order, and no more. When they are in, the rule has no instance, and the other rules have
theirs. Each instance that was removed has its one deletion, under the address that it is saved
under; an alerting one has its closing annotation if the rule is known; and the active ones are
ended by one batch, if there is any. After that there is nothing that another reset could do. -/
theorem reset_of_clear (w : Worker) (root : Option StopReason) (next : Resume) (d : Shared) :
    let removed := (d.cache.ofRule w.key).values
    (∀ answers s, serve? root (w.clear next d) answers = some s →
      answers.length < removed.length → ∀ which ok,
        (s.1.step? root (.stored which ok) s.2).isSome = true ↔
          answers.length + which < removed.length) ∧
    (∀ answers s, serve? root (w.clear next d) answers = some s →
      answers.length = removed.length →
        ∃ xs : List (Instance × Bool), (xs.map Prod.fst).Perm removed ∧
          xs.map Prod.snd = answers.map Prod.snd ∧
          s = w.closeAlerts removed next (d.wiped w.key w.lastRule xs) ∧
          s.2.batches = d.batches ++ d.closings w.key removed ∧
          s.2.cache.ofRule w.key = ∅ ∧
          (∀ k, k ≠ w.key → s.2.cache.ofRule k = d.cache.ofRule k) ∧
          ∀ (v : Worker) (next' : Resume) (d' : Shared), v.key = w.key → d'.cache = s.2.cache →
            v.clear next' d' = v.resume next' d') ∧
    ∀ p : PromptStore, (p.persist d).2.journal =
      d.journal ++ d.cache.snapshot.map fun i => d.saving i (p.saves i) := by
  intro removed
  refine ⟨fun answers s h hless which ok => ?_, fun answers s h hall => ?_, fun p =>
    p.journal_persist d⟩
  · have hne : removed ≠ [] := List.length_pos_iff.1 (Nat.zero_lt_of_lt hless)
    rw [clear_of_removed hne] at h
    obtain ⟨xs, rest, hperm, hoks, rfl⟩ := awaiting_of_serve h hless
    have hrest : answers.length + rest.length = removed.length := length_of_perm hperm hoks
    rw [isSome_step_awaiting, ← hrest, Nat.add_lt_add_iff_left]
  · obtain ⟨xs, hperm, hoks, rfl⟩ : ∃ xs : List (Instance × Bool),
        (xs.map Prod.fst).Perm removed ∧ xs.map Prod.snd = answers.map Prod.snd ∧
          s = w.closeAlerts removed next (d.wiped w.key w.lastRule xs) := by
      by_cases hnone : removed = []
      · obtain rfl : answers = [] := List.length_eq_zero_iff.1 (by rw [hall, hnone]; rfl)
        refine ⟨[], by rw [hnone]; exact .refl _, rfl, ?_⟩
        exact (Option.some.inj h).symm.trans (clear_of_none hnone)
      · rw [clear_of_removed hnone] at h
        exact closed_of_serve h hall hnone
    have huntouched : (w.closeAlerts removed next (d.wiped w.key w.lastRule xs)).2.Untouched
        (d.wiped w.key w.lastRule xs) := untouched_closeAlerts w removed next _
    have hcache := huntouched.cache
    refine ⟨xs, hperm, hoks, rfl, ?_, ?_, fun k hk => ?_, fun v next' d' hkey hd' => ?_⟩
    · rw [batches_closeAlerts, Shared.batches_wiped]
      rfl
    · rw [hcache]
      exact Cache.ofRule_setRule d.cache w.key ∅
    · rw [hcache]
      exact Cache.ofRule_setRule_of_ne d.cache ∅ hk
    · exact clear_of_cleared hkey (hd'.trans hcache)

/-- An alerting and a normal instance. -/
def twoHosts : Shared :=
  ({ clock := .epoch } : Shared).call
    (.process Shared.twoHostRule (Shared.found [("web", .alerting), ("db", .normal)] 0) ∅)

/-- The routine of their rule, which has evaluated it. -/
def twoHostRoutine : Worker :=
  { new Shared.twoHostRule.key with version := 1, lastRule := some Shared.twoHostRule }

/-- The store fails one of the two calls, and answers that first. The annotation of the alerting
instance tells that it is normal. -/
theorem reset_of_clear_twoHosts :
    ∃ s, serve? none (twoHostRoutine.clear (.adopt 2) twoHosts) [(1, false), (0, true)] =
        some s ∧
      s.2.cache.ofRule Shared.twoHostRule.key = ∅ ∧ s.2.batches.length = 1 ∧
      ∃ i ∈ (twoHosts.cache.ofRule Shared.twoHostRule.key).values, i.status = .alerting ∧
        ∃ a : Annotation,
          a.Says Shared.twoHostRule i.labels twoHosts.clock ⟨i.standing, .normal⟩ ∧
            twoHosts.noted a ∈ s.2.journal := by
  obtain ⟨s, hs⟩ : ∃ s, serve? none (twoHostRoutine.clear (.adopt 2) twoHosts)
      [(1, false), (0, true)] = some s := Option.isSome_iff_exists.1 (by decide +kernel)
  obtain ⟨xs, -, -, hleft, hbatches, hnone, -⟩ :=
    (reset_of_clear twoHostRoutine none (.adopt 2) twoHosts).2.1 _ s hs (by decide +kernel)
  refine ⟨s, hs, hnone, ?_, ?_⟩
  · rw [hbatches]
    decide +kernel
  have hweb : ((twoHosts.cache.ofRule Shared.twoHostRule.key).values.any
      (·.status == .alerting)) = true := by decide +kernel
  obtain ⟨i, hi, hfiring⟩ := List.any_eq_true.1 hweb
  rw [beq_iff_eq] at hfiring
  obtain ⟨a, ha, hfarewell⟩ := twoHosts.exists_farewell Shared.twoHostRule twoHosts.clock hfiring
  refine ⟨i, hi, hfiring, a, ha, ?_⟩
  rw [hleft]
  refine mem_journal_closeAlerts (List.mem_append_right _ ?_) twoHostRoutine _ _
  refine List.mem_flatMap.2 ⟨Shared.twoHostRule, List.mem_cons_self, ?_⟩
  refine List.mem_flatMap.2 ⟨i, hi, ?_⟩
  rw [hfarewell]
  exact List.mem_cons_self

end Worker

end Vigil
