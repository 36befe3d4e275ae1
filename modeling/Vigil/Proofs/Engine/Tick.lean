import Vigil.Proofs.Engine.Registry

/-!
# What a tick changes

A deletion takes rules and their live routines away and touches nothing else
(`System.delete_eq`). It dismisses every routine of its rules, which means nothing to
those that were told to stop before (`System.entries_delete`). A tick makes routines for
the rules that have none, sends each evaluation that is due to the live routine of its
rule (`System.Sends`), and deletes the rules that are gone. `System.tick_eq` says what
is left of an engine then.
-/

namespace Vigil

theorem Worker.dismissed_of_stopped {w : Worker} (h : w.handle.stop ≠ none) :
    w.dismissed = w := by
  unfold dismissed Handle.fire
  rw [if_pos (Option.isSome_iff_ne_none.2 h)]

theorem Worker.stop_dismissed_of_live {w : Worker} (h : w.handle.stop = none) :
    w.dismissed.handle.stop = some .ruleDeleted := by
  unfold dismissed Handle.fire
  rw [h]
  rfl

theorem Cadence.key_raise (min : Int) (r : Rule) : (Cadence.raise min r).key = r.key := by
  unfold Cadence.raise
  split
  · rfl
  · rfl

namespace System

variable {s : System}

/-! ## Deletion -/

/-- The routines of the rules in `ks` are dismissed. -/
def dismissAll (ks : List RuleKey) (ws : List Worker) : List Worker :=
  ws.map fun w => if w.key ∈ ks then w.dismissed else w

theorem find?_deleteRule (s : System) (k q : RuleKey) :
    (s.deleteRule k).registry.find? q = if q = k then none else s.registry.find? q := by
  have herase : (s.registry.live.erase k).find? q =
      if q = k then none else s.registry.find? q := by
    rw [Table.find?_erase]
    simp only [Std.LawfulEqOrd.compare_eq_iff_eq]
    rfl
  unfold deleteRule
  dsimp only
  split
  · exact herase
  · exact herase

theorem entries_deleteRule (hs : s.registry.Sound) (k : RuleKey) :
    (s.deleteRule k).registry.entries = dismissAll [k] s.registry.entries := by
  have hstays : ∀ {m w}, s.registry.entries[m]? = some w → s.registry.find? k ≠ some m →
      (if w.key ∈ [k] then w.dismissed else w) = w := by
    intro m w hw hm
    split
    · rename_i hkey
      rw [← List.mem_singleton.1 hkey] at hm
      exact Worker.dismissed_of_stopped (mt (hs.unstopped hw).1 hm)
    · rfl
  refine List.ext_getElem? fun m => ?_
  unfold dismissAll
  rw [List.getElem?_map]
  unfold deleteRule Registry.remove
  dsimp only
  split
  · rename_i n hn
    have hlive : s.registry.find? k = some n := hn
    show (s.registry.entries.modify n _)[m]? = _
    rw [List.getElem?_modify]
    cases hw : s.registry.entries[m]? with
    | none => rfl
    | some w =>
        by_cases hnm : n = m
        · subst hnm
          obtain ⟨u, hu, hkey⟩ := hs.live hlive
          obtain rfl := Option.some.inj (hw.symm.trans hu)
          simp only [if_true, Option.map_some, hkey, List.mem_singleton]
          rfl
        · simp only [if_neg hnm, Option.map_some]
          rw [hstays hw (by rw [hlive]; exact mt Option.some.inj hnm)]
          rfl
  · rename_i hn
    have hlive : s.registry.find? k = none := hn
    cases hw : s.registry.entries[m]? with
    | none => rfl
    | some w =>
        simp only [Option.map_some]
        rw [hstays hw (by rw [hlive]; exact nofun)]

theorem getElem?_dismissAll {ks : List RuleKey} {ws : List Worker} {n : Nat} {w' : Worker}
    (h : (dismissAll ks ws)[n]? = some w') :
    ∃ w, ws[n]? = some w ∧ w' = if w.key ∈ ks then w.dismissed else w := by
  unfold dismissAll at h
  rw [List.getElem?_map] at h
  obtain ⟨w, hw, rfl⟩ := Option.map_eq_some_iff.1 h
  exact ⟨w, hw, rfl⟩

theorem sound_deleteRule (hs : s.registry.Sound) (k : RuleKey) :
    (s.deleteRule k).registry.Sound := by
  constructor
  · intro q n hq
    rw [find?_deleteRule] at hq
    split at hq
    · cases hq
    · rename_i hqk
      obtain ⟨w, hw, rfl⟩ := hs.live hq
      refine ⟨w, ?_, rfl⟩
      rw [entries_deleteRule hs, dismissAll, List.getElem?_map, hw, Option.map_some,
        if_neg (mt List.mem_singleton.1 hqk)]
  · intro n w' hw'
    rw [entries_deleteRule hs] at hw'
    obtain ⟨w, hw, rfl⟩ := getElem?_dismissAll hw'
    rw [find?_deleteRule]
    by_cases hk : w.key = k
    · rw [if_pos (List.mem_singleton.2 hk), w.key_dismissed, if_pos hk]
      exact ⟨fun h => absurd h w.stop_dismissed, nofun⟩
    · rw [if_neg (mt List.mem_singleton.1 hk), if_neg hk]
      exact hs.unstopped hw

theorem delete_cons (s : System) (k : RuleKey) (ks : List RuleKey) :
    s.delete (k :: ks) = (s.deleteRule k).delete ks := rfl

/-- A deletion is about rules and routines only. -/
theorem delete_eq (s : System) (ks : List RuleKey) :
    s.delete ks = { s with
      rules := (s.delete ks).rules
      registry := (s.delete ks).registry } := by
  induction ks generalizing s with
  | nil => rfl
  | cons k ks ih =>
      rw [delete_cons, ih (s.deleteRule k)]
      rfl

theorem sound_delete (hs : s.registry.Sound) (ks : List RuleKey) :
    (s.delete ks).registry.Sound := by
  induction ks generalizing s with
  | nil => exact hs
  | cons k ks ih => exact ih (sound_deleteRule hs k)

theorem find?_delete (s : System) (ks : List RuleKey) (q : RuleKey) :
    (s.delete ks).registry.find? q = if q ∈ ks then none else s.registry.find? q := by
  induction ks generalizing s with
  | nil => rfl
  | cons k ks ih =>
      rw [delete_cons, ih, find?_deleteRule]
      by_cases hq : q = k
      · simp [hq]
      · simp [hq]

theorem dismissAll_dismissAll (ks ks' : List RuleKey) (ws : List Worker) :
    dismissAll ks' (dismissAll ks ws) = dismissAll (ks ++ ks') ws := by
  unfold dismissAll
  rw [List.map_map]
  refine List.map_congr_left fun w _ => ?_
  dsimp only [Function.comp_apply]
  by_cases hk : w.key ∈ ks
  · have htwice : (if w.dismissed.key ∈ ks' then w.dismissed.dismissed else w.dismissed) =
        w.dismissed := by
      rw [Worker.dismissed_of_stopped w.stop_dismissed, ite_self]
    rw [if_pos hk, htwice, if_pos (List.mem_append_left _ hk)]
  · by_cases hk' : w.key ∈ ks'
    · rw [if_neg hk, if_pos hk', if_pos (List.mem_append_right _ hk')]
    · rw [if_neg hk, if_neg hk', if_neg (by simp [hk, hk'])]

theorem entries_delete (hs : s.registry.Sound) (ks : List RuleKey) :
    (s.delete ks).registry.entries = dismissAll ks s.registry.entries := by
  induction ks generalizing s with
  | nil => simp [dismissAll, delete]
  | cons k ks ih =>
      rw [delete_cons, ih (sound_deleteRule hs k), entries_deleteRule hs, dismissAll_dismissAll]
      rfl

theorem contains_delete (s : System) (ks : List RuleKey) (q : RuleKey) :
    (s.delete ks).rules.rules.contains q = (!decide (q ∈ ks) && s.rules.rules.contains q) := by
  induction ks generalizing s with
  | nil => simp [delete]
  | cons k ks ih =>
      have hrule : (s.deleteRule k).rules.rules.contains q =
          (!decide (q = k) && s.rules.rules.contains q) := by
        show (s.rules.rules.erase k).contains q = _
        rw [Table.contains_erase]
        by_cases hq : q = k
        · simp [hq]
        · simp [hq]
      rw [delete_cons, ih, hrule]
      by_cases hq : q = k
      · simp [hq]
      · simp [hq]

theorem keyed_delete (hs : s.rules.Keyed) (ks : List RuleKey) : (s.delete ks).rules.Keyed := by
  induction ks generalizing s with
  | nil => exact hs
  | cons k ks ih => exact ih (s := s.deleteRule k) (hs.remove k)

/-- Deleting what is no rule leaves the rules as they are. -/
theorem rules_delete_of_not_contains {ks : List RuleKey}
    (h : ∀ k ∈ ks, s.rules.rules.contains k = false) : (s.delete ks).rules = s.rules := by
  induction ks generalizing s with
  | nil => rfl
  | cons k ks ih =>
      have hsame : (s.deleteRule k).rules = s.rules := by
        show ({ s.rules with rules := s.rules.rules.erase k } : RuleSet) = s.rules
        rw [Table.erase_of_not_contains (h k List.mem_cons_self)]
      rw [delete_cons, ih, hsame]
      intro q hq
      rw [hsame]
      exact h q (List.mem_cons_of_mem k hq)

/-! ## Sending -/

/-- `ds` sends each evaluation in `ready` to the live routine of its rule, after its
delay. -/
structure Sends (s : System) (ready : List (Evaluation × Span)) (ds : List Dispatch) : Prop where
  evaluations : ds.map (·.evaluation) = ready.map (·.1)
  times : ds.map (·.dueAt) = ready.map fun e => s.shared.uptime + roundUp e.2
  live : ∀ d ∈ ds, s.registry.find? d.evaluation.rule.key = some d.worker

theorem dispatchAll_eq {ready : List (Evaluation × Span)}
    (hlive : ∀ e ∈ ready, (s.registry.find? e.1.rule.key).isSome = true) :
    ∃ ds, s.Sends ready ds ∧
      ready.foldl (fun s (e, delay) => s.dispatch e delay) s = { s with
        dispatches := s.dispatches ++ ds
        dispatched := s.dispatched + ds.length } := by
  induction ready using List.reverseRecOn with
  | nil => exact ⟨[], ⟨rfl, rfl, List.forall_mem_nil _⟩, by simp⟩
  | append_singleton ready e ih =>
      obtain ⟨ds, hds, hfold⟩ := ih fun e he => hlive e (List.mem_append_left _ he)
      obtain ⟨n, hn⟩ := Option.isSome_iff_exists.1
        (hlive e (List.mem_append_right _ List.mem_cons_self))
      let d : Dispatch := ⟨s.dispatched + ds.length, n, e.1, s.shared.uptime + roundUp e.2⟩
      refine ⟨ds ++ [d], ⟨?_, ?_, ?_⟩, ?_⟩
      · simp [hds.evaluations, d]
      · simp [hds.times, d]
      · intro d' hd'
        rcases List.mem_append.1 hd' with hd' | hd'
        · exact hds.live d' hd'
        · rw [List.mem_singleton.1 hd']
          exact hn
      · rw [List.foldl_append, hfold]
        simp only [List.foldl_cons, List.foldl_nil, dispatch, hn, List.append_assoc,
          List.length_append, List.length_singleton, Nat.add_assoc, d]

theorem shared_dispatch (s : System) (e : Evaluation) (delay : Span) :
    (s.dispatch e delay).shared = s.shared := by
  unfold dispatch
  split
  · rfl
  · rfl

/-! ## The tick -/

/-- The rules that ran and are gone. -/
def gone (s : System) (rules : RuleSet) : List RuleKey :=
  s.registry.keys.filter fun k => !rules.rules.contains k

theorem mem_gone_iff {rules : RuleSet} {k : RuleKey} :
    k ∈ s.gone rules ↔ s.isRunning k = true ∧ rules.rules.contains k = false := by
  unfold gone isRunning
  rw [List.mem_filter, Registry.mem_keys_iff, Bool.not_eq_true']

theorem startRoutines_eq (s : System) (rules : List Rule) :
    s.startRoutines rules = { s with registry := s.registry.ensure (rules.map Rule.key) } := by
  unfold startRoutines Registry.ensure
  rw [List.foldl_map]

/-- The title that goes along with an evaluation. -/
def folderOf (settings : SchedulerSettings) (folders : Table String String) (r : Rule) : String :=
  if settings.disableFolderLabel then "" else (folders.find? r.namespaceUid).getD ""

/-- A rule has an evaluation on a tick if it has a frequency and that divides the number
of the tick. -/
theorem evaluation?_eq_some_iff {settings : SchedulerSettings} {folders : Table String String}
    {t : Moment} {r : Rule} {e : Evaluation} :
    evaluation? settings folders t r = some e ↔
      (∃ f, Cadence.frequency (Cadence.raise settings.minInterval r).intervalSeconds
          settings.minInterval settings.base = .ok f ∧
        Cadence.isDue (Cadence.tickNumber t settings.base) f = true) ∧
      e = ⟨t, Cadence.raise settings.minInterval r,
        folderOf settings folders (Cadence.raise settings.minInterval r)⟩ := by
  unfold folderOf
  -- The two lengths are numbers modulo 2 ^ 64 and must stay closed: the function is
  -- unfolded as a whole, and they get names of their own before anything is reduced.
  obtain ⟨f, hf⟩ : ∃ f, f = @evaluation? := ⟨_, rfl⟩
  rw [← hf]
  delta evaluation? at hf
  subst hf
  obtain ⟨min, hmin⟩ : ∃ min, min = settings.minInterval := ⟨_, rfl⟩
  obtain ⟨base, hbase⟩ : ∃ base, base = settings.base := ⟨_, rfl⟩
  beta_reduce
  rw [← hmin, ← hbase]
  dsimp only
  cases Cadence.frequency (Cadence.raise min r).intervalSeconds min base with
  | error _ => simp
  | ok f =>
      simp only [Except.ok.injEq, exists_eq_left', Option.ite_none_right_eq_some,
        Option.some.injEq, eq_comm (a := e)]

theorem fst_due (settings : SchedulerSettings) (rules : RuleSet) (t : Moment) :
    (due settings rules t).map Prod.fst =
      rules.all.filterMap (evaluation? settings rules.folders t) := by
  unfold due
  rw [List.map_map]
  exact List.zipIdx_map_fst ..

theorem map_key_due (settings : SchedulerSettings) (rules : RuleSet) (t : Moment) :
    (due settings rules t).map (·.1.rule.key) =
      (rules.all.filterMap (evaluation? settings rules.folders t)).map (·.rule.key) := by
  rw [← fst_due, List.map_map]
  rfl

section Due

variable {settings : SchedulerSettings} {rules : RuleSet} {t : Moment}

theorem exists_of_mem_due {e : Evaluation × Span} (h : e ∈ due settings rules t) :
    ∃ r ∈ rules.all, evaluation? settings rules.folders t r = some e.1 := by
  have hfst := List.mem_map_of_mem (f := Prod.fst) h
  rw [fst_due] at hfst
  exact List.mem_filterMap.1 hfst

theorem key_of_evaluation? {folders : Table String String} {r : Rule} {e : Evaluation}
    (h : evaluation? settings folders t r = some e) : e.rule.key = r.key := by
  rw [(evaluation?_eq_some_iff.1 h).2, Cadence.key_raise]

/-- What is due is due for one of the rules. -/
theorem key_mem_of_mem_due {e : Evaluation × Span} (h : e ∈ due settings rules t) :
    e.1.rule.key ∈ rules.all.map Rule.key := by
  obtain ⟨r, hr, he⟩ := exists_of_mem_due h
  rw [key_of_evaluation? he]
  exact List.mem_map_of_mem hr

theorem scheduledAt_of_mem_due {e : Evaluation × Span} (h : e ∈ due settings rules t) :
    e.1.scheduledAt = t := by
  obtain ⟨r, -, he⟩ := exists_of_mem_due h
  rw [(evaluation?_eq_some_iff.1 he).2]

/-- In the order of the rules, and each once. -/
theorem sorted_due (hk : rules.Keyed) (settings : SchedulerSettings) (t : Moment) :
    ((due settings rules t).map (·.1.rule.key)).Pairwise fun a b => compare a b = .lt := by
  have hall := rules.rules.sorted_keys
  rw [← hk.map_key_all, List.pairwise_map] at hall
  rw [map_key_due, List.pairwise_map, List.pairwise_filterMap]
  refine hall.imp fun hab e he e' he' => ?_
  rw [key_of_evaluation? he, key_of_evaluation? he']
  exact hab

/-- All that is due is due within the base interval. -/
theorem roundUp_le_of_mem_due {e : Evaluation × Span} (h : e ∈ due settings rules t) :
    roundUp e.2 ≤ 1000 * settings.tickSeconds := by
  unfold due at h
  obtain ⟨⟨e', i⟩, hi, rfl⟩ := List.mem_map.1 h
  generalize rules.all.filterMap (evaluation? settings rules.folders t) = ready at hi ⊢
  have hlt : i < ready.length := by simpa using List.snd_lt_of_mem_zipIdx hi
  have hdelay : (Cadence.delay (.ofSeconds settings.tickSeconds) ready.length i).nanos ≤
      1000000000 * settings.tickSeconds :=
    Nat.le_trans (Nat.mul_le_mul_left _ (Nat.le_of_lt hlt)) (Nat.div_mul_le_self _ _)
  unfold roundUp nanosPerMilli
  dsimp only
  omega

end Due

/-- **A tick.** It takes the rules of the listing, or else those it has. -/
theorem tick_eq {listing : Option RuleSet} {rules : RuleSet} (hrules : listing.getD s.rules = rules)
    (hk : rules.Keyed) (t : Moment) {g : Registry Worker}
    (hg : s.registry.ensure rules.rules.keys = g) :
    ∃ ds, Sends { s with registry := g } (due s.settings rules t) ds ∧
      (s.tick t listing).2 = delete { s with
        shared := { s.shared with metrics := s.shared.metrics.recordRules (rules.all.map (·.uid)) }
        rules := rules
        registry := g
        dispatches := s.dispatches ++ ds
        dispatched := s.dispatched + ds.length } (s.gone rules) := by
  let u : System := { s with
    shared := { s.shared with metrics := s.shared.metrics.recordRules (rules.all.map (·.uid)) }
    rules := rules
    registry := g }
  have hstart : startRoutines (recordRules { s with rules := rules } (rules.all.map (·.uid)))
      rules.all = u := by
    rw [startRoutines_eq, hk.map_key_all]
    exact congrArg (fun g => { u with registry := g }) hg
  have hlive : ∀ e ∈ due s.settings rules t, (u.registry.find? e.1.rule.key).isSome = true := by
    intro e he
    have hkey := key_mem_of_mem_due he
    rw [hk.map_key_all] at hkey
    rw [show u.registry = s.registry.ensure rules.rules.keys from hg.symm,
      Registry.isSome_find?_ensure, decide_eq_true hkey, Bool.true_or]
  obtain ⟨ds, hds, hsent⟩ := dispatchAll_eq hlive
  refine ⟨ds, ⟨hds.evaluations, hds.times, hds.live⟩, ?_⟩
  subst hrules
  unfold tick
  dsimp only
  rw [hstart]
  exact congrArg (fun v : System => v.delete (s.gone (listing.getD s.rules))) hsent

/-- Of the shared data a tick changes the counts. -/
theorem shared_tick (s : System) (t : Moment) (listing : Option RuleSet) :
    ∃ metrics, (s.tick t listing).2.shared = { s.shared with metrics } := by
  have hsent : ∀ (ready : List (Evaluation × Span)) (u : System),
      (ready.foldl (fun s (e, delay) => s.dispatch e delay) u).shared = u.shared := by
    intro ready u
    induction ready generalizing u with
    | nil => rfl
    | cons e ready ih => exact (ih _).trans (u.shared_dispatch e.1 e.2)
  unfold tick
  dsimp only
  rw [delete_eq]
  exact ⟨_, hsent _ _⟩

end System

end Vigil
