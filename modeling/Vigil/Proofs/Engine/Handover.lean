import Vigil.Proofs.Engine.Versions

/-!
# From one version to the next

To take up another version a routine first drops the instances of its rule. It stays at the
old version while their rows go, and sends the closing batch of those that were active with
the last row (`Worker.Clears`). Each turn on the way leads to the next one or to the new
version (`Worker.Clears.turn`), and there are at most two more of them than instances. So no
evaluation meets an instance of another version than its own (`Worker.versions_apart`).
-/

namespace Vigil

namespace Worker

open Turn

/-- How far a routine at `version` has come with the turns `ts` that clear the instances
`removed` of rule `k`: it is in phase `p` and at version `v` now. -/
inductive Clears (k : RuleKey) (removed : List Instance) (next : Resume) (version : Int)
    (ts : List Turn) (p : Phase) (v : Int) : Prop where
  | erasing {erasure : Erasure} (hphase : p = .erasing erasure next)
      (hremoved : erasure.removed = removed) (hwaiting : erasure.waiting ≠ [])
      (hlength : ts.length + erasure.waiting.length ≤ removed.length + 1)
      (hversion : v = version) (hsent : ts.flatMap sent = [])
  | closing (hphase : p = .closing next) (hlength : ts.length ≤ removed.length + 1)
      (hversion : v = version)
      (hsent : ∃ s ∈ ts, ts.flatMap sent = s.shared.closings k removed)
  | renewed (hphase : p.next? = none) (hversion : next.version? = some v)
      (hsent : ∃ s ∈ ts, ts.flatMap sent = s.shared.closings k removed)

variable {root : Option StopReason} {w w' v : Worker} {d d' : Shared} {next : Resume}
  {k : RuleKey} {removed : List Instance} {version : Int} {ts : List Turn} {t : Turn}

/-- To go on is to be at the version of what comes next. -/
theorem version_resume (w : Worker) (d : Shared)
    (hnext : next.version?.isSome = true) :
    (w.resume next d).1.phase.next? = none ∧
      next.version? = some (w.resume next d).1.version := by
  cases next with
  | exit => cases hnext
  | adopt version => exact ⟨rfl, rfl⟩
  | evaluate e => exact ⟨rfl, rfl⟩

/-- Only if there is a closing batch the routine stays at its version for another turn. -/
theorem version_closeAlerts (w : Worker) (d : Shared)
    (removed : List Instance) (hnext : next.version?.isSome = true) :
    ((w.closeAlerts removed next d).1.phase = .closing next ∧
        (w.closeAlerts removed next d).1.version = w.version) ∨
      ((w.closeAlerts removed next d).1.phase.next? = none ∧
        next.version? = some (w.closeAlerts removed next d).1.version) := by
  rw [closeAlerts_eq]
  split
  · exact Or.inr (version_resume w d hnext)
  · exact Or.inl ⟨rfl, rfl⟩

theorem sent_snoc {ts : List Turn} (h : ts.flatMap sent = []) (t : Turn) :
    (ts ++ [t]).flatMap sent = t.sent := by
  rw [List.flatMap_append, h, List.nil_append, List.flatMap_singleton]

/-- The turn with the last row sends the closing batch. -/
theorem clears_closeAlerts (hw : w.key = k) (hversion : w.version = version)
    (hnext : next.version?.isSome = true) (hstill : d.Still t.shared)
    (ht : (t.worker', t.shared') = w.closeAlerts removed next d)
    (hts : ts.flatMap sent = []) (hlength : ts.length ≤ removed.length) :
    Clears k removed next version (ts ++ [t]) t.worker'.phase t.worker'.version := by
  have hw' : t.worker' = (w.closeAlerts removed next d).1 := congrArg Prod.fst ht
  have hd' : t.shared' = (w.closeAlerts removed next d).2 := congrArg Prod.snd ht
  have hsent : ∃ s ∈ ts ++ [t],
      (ts ++ [t]).flatMap sent = s.shared.closings k removed := by
    refine ⟨t, List.mem_append_right _ (List.mem_singleton_self t), ?_⟩
    rw [sent_snoc hts]
    refine sent_eq ?_
    rw [hd', batches_closeAlerts, hstill.batches, hstill.closings_eq, hw]
  rw [hw']
  rcases version_closeAlerts w d removed hnext with ⟨hphase, hsame⟩ | ⟨hphase, hv⟩
  · refine .closing hphase ?_ (hsame.trans hversion) hsent
    rw [List.length_append, List.length_singleton]
    exact Nat.succ_le_succ hlength
  · exact .renewed hphase hv hsent

/-- The turn that takes up another version. -/
theorem clears_clear (hw : w.key = k) (hversion : w.version = version)
    (hnext : next.version?.isSome = true)
    (ht : (t.worker', t.shared') = w.clear next t.shared) :
    Clears k (t.shared.cache.ofRule k).values next version [t] t.worker'.phase
      t.worker'.version := by
  rw [clear_eq, hw] at ht
  split at ht
  next hnone =>
      rw [hnone]
      have hw' : t.worker' = (w.resume next _).1 := congrArg Prod.fst ht
      have hd' : t.shared' = (w.resume next _).2 := congrArg Prod.snd ht
      obtain ⟨hphase, hv⟩ := version_resume w (t.shared.erase k w.lastRule).2 hnext
      rw [hw']
      refine .renewed hphase hv ⟨t, List.mem_singleton_self t, ?_⟩
      rw [List.flatMap_singleton]
      refine sent_eq ?_
      rw [hd', batches_resume]
      exact (List.append_nil _).symm
  next hsome =>
      have hw' := congrArg Prod.fst ht
      have hd' := congrArg Prod.snd ht
      dsimp only at hw' hd'
      rw [hw']
      refine .erasing rfl rfl hsome ?_ hversion ?_
      · rw [List.length_singleton, Nat.add_comm]
      · rw [List.flatMap_singleton]
        refine sent_eq ?_
        rw [hd', List.append_nil]
        rfl

/-- **A turn of the clearing.** -/
theorem Clears.turn (h : Clears k removed next version ts t.worker.phase t.worker.version)
    (hkey : t.worker.key = k) (hnext : next.version?.isSome = true)
    (hclearing : t.worker.phase.next? ≠ none) (ht : t.IsStep) :
    Clears k removed next version (ts ++ [t]) t.worker'.phase t.worker'.version := by
  cases h with
  | @erasing erasure hphase hremoved hwaiting hlength hversion hsent =>
      obtain ⟨which, ok, hwhich, hresult⟩ := erasing_cases hphase ht
      have hrows : (erasure.answer which ok t.shared).1.waiting.length + 1 =
          erasure.waiting.length := by
        rw [Erasure.waiting_answer hwhich, List.length_eraseIdx_of_lt hwhich]
        omega
      have hstill := Shared.still_erasureAnswer erasure which ok t.shared
      split at hresult
      next hdone =>
          rw [hremoved] at hresult
          refine clears_closeAlerts hkey hversion hnext hstill hresult hsent ?_
          rw [hdone, List.length_nil] at hrows
          omega
      next hmore =>
          have hw' := congrArg Prod.fst hresult
          have hd' := congrArg Prod.snd hresult
          dsimp only at hw' hd'
          rw [hw']
          refine .erasing rfl ?_ hmore ?_ hversion ?_
          · rw [Erasure.removed_answer, hremoved]
          · rw [List.length_append, List.length_singleton]
            omega
          · rw [sent_snoc hsent]
            refine sent_eq ?_
            rw [hd', hstill.batches, List.append_nil]
  | closing hphase hlength hversion hsent =>
      have hresult := closing_cases hphase ht
      have hw' : t.worker' = (t.worker.resume next t.shared).1 :=
        congrArg Prod.fst hresult
      have hd' : t.shared' = (t.worker.resume next t.shared).2 :=
        congrArg Prod.snd hresult
      obtain ⟨hphase', hv⟩ := version_resume t.worker t.shared hnext
      obtain ⟨s, hs, hbatch⟩ := hsent
      rw [hw']
      refine .renewed hphase' hv ⟨s, List.mem_append_left _ hs, ?_⟩
      have hquiet : t.sent = [] := by
        refine sent_eq ?_
        rw [hd', batches_resume, List.append_nil]
      rw [List.flatMap_append, hbatch, List.flatMap_singleton, hquiet, List.append_nil]
  | renewed hphase => exact absurd hphase hclearing

theorem Clears.path (hw : Clears k removed next version [t] w.phase w.version) (hkey : w.key = k)
    (hnext : next.version?.isSome = true) (h : w.Path ts v)
    (hclearing : ∀ s ∈ ts, s.worker.phase.next? ≠ none) :
    Clears k removed next version (t :: ts) v.phase v.version := by
  induction h with
  | refl => exact hw
  | wait _ hv ih =>
      rw [hv.phase, hv.version]
      exact ih hclearing
  | turn hpath hs ih =>
      rw [List.forall_mem_append, List.forall_mem_singleton] at hclearing
      rw [← List.cons_append]
      exact (ih hclearing.1).turn (hpath.key.trans hkey) hnext hclearing.2 hs

/-- While the instances are being cleared the version is the old one, and every turn so far had
a part in it. -/
theorem Clears.version_eq (h : Clears k removed next version ts v.phase v.version)
    (hclearing : v.phase.next? ≠ none) :
    v.version = version ∧ ts.length ≤ removed.length + 1 := by
  cases h with
  | erasing _ _ _ hlength hversion _ => exact ⟨hversion, Nat.le_of_add_right_le hlength⟩
  | closing _ hlength hversion _ => exact ⟨hversion, hlength⟩
  | renewed hphase => exact absurd hphase hclearing

/-- While the instances are being cleared there is something that the routine can do. -/
theorem Clears.exists_step (h : Clears k removed next version ts v.phase v.version)
    (hclearing : v.phase.next? ≠ none) (root : Option StopReason) (d : Shared) :
    ∃ input, (v.step? root input d).isSome = true := by
  cases h with
  | erasing hphase _ hwaiting =>
      refine ⟨_, isSome_step_erasing hphase ?_⟩
      rw [hphase, Phase.isAwaiting, Erasure.isDone, Bool.not_eq_true', List.isEmpty_eq_false_iff]
      exact hwaiting
  | closing hphase => exact ⟨_, isSome_step_closing hphase⟩
  | renewed hphase => exact absurd hphase hclearing

/-- An instance that is there since turn `t` brought it is of the version of the evaluation that
an evaluator is called for. -/
theorem applied_of_called {id : String} {e : Evaluation} (ht : t.IsStep)
    (hw : t.worker.Versioned) (h : t.worker'.Path ts v)
    (hpending : ∀ s ∈ t :: ts, ∀ e, s.worker.handle.pending = some e → 0 < e.rule.version)
    (hcreates : t.Creates id) (hholds : ∀ s ∈ ts, s.Holds id) (hcalled : v.phase.called? = some e) :
    (∃ f, t.applied? = some f) ∧
      ∀ s ∈ t :: ts, ∀ f, s.applied? = some f → f.rule.version = e.rule.version := by
  rw [List.forall_mem_cons] at hpending ⊢
  obtain ⟨f, hf⟩ := exists_applied ht hcreates
  obtain ⟨hnone, hupcoming⟩ := phase_of_applied? hf
  obtain ⟨hpos, hversion⟩ := hw.upcoming hnone f hupcoming
  have hidle : t.worker.phase ≠ .idle := by
    intro hidle
    rw [hidle] at hupcoming
    cases hupcoming
  have hworks : Works t.worker t.worker' := works_step hidle hnone ht
  have hw' : t.worker'.Versioned := (succeeds_step hw hpending.1 ht).versioned
  have hids : ∀ s ∈ ts, s.shared'.cache.ids s.worker.key ≠ [] := fun s hs =>
    List.ne_nil_of_mem (hholds s hs).2
  obtain ⟨⟨hsame, -⟩, happlied⟩ :=
    h.version_eq hw' (hworks.version ▸ hpos) hworks.next hpending.2 hids
  have hcurrent : e.rule.version = t.worker'.version := by
    obtain ⟨hnone', hupcoming'⟩ := Phase.upcoming?_of_called? hcalled
    have hv : v.Versioned := (h.succeeds hw' hpending.2).versioned
    exact (hv.upcoming hnone' e hupcoming').2.trans hsame
  refine ⟨⟨f, hf⟩, fun f' hf' => ?_, fun s hs f' hf' => ?_⟩
  · obtain rfl := Option.some.inj (hf.symm.trans hf')
    rw [hcurrent, hworks.version, hversion]
  · rw [hcurrent]
    exact happlied s hs f' hf'

/-- A turn that takes up another version than the routine's own clears the instances first. -/
theorem clears_of_renews (ht : t.IsStep) (hkey : t.worker.key = k) (hpos : 0 < t.worker.version)
    (hrenews : t.Renews next) :
    t.shared'.cache.ids k = [] ∧ Clears k (t.shared.cache.ofRule k).values next t.worker.version
      [t] t.worker'.phase t.worker'.version := by
  obtain ⟨handle, hsame, hclear⟩ := hrenews.clears ht hpos
  have hk : ({ t.worker with handle } : Worker).key = k := hsame.trans hkey
  refine ⟨?_, clears_clear hk rfl hrenews.isSome_version? hclear⟩
  have hids := ids_clear ({ t.worker with handle } : Worker) next t.shared
  rw [← hclear, hk] at hids
  exact hids

/-- **No state crosses a version.** A routine goes from its start by the turns `before` to turn
`t` and then by `after` to `v`, and the evaluations that reach it have positive versions. If
`t` brings an instance that is there ever since, and an evaluator is called at `v`, then all
verdicts applied from `t` on are of that evaluation's version. If `t` takes up another version,
and it is not the first, it drops the instances of the rule. Then the routine stays at the old
version as long as it clears, which takes one turn for each instance and one for the batch at
the most, and it can always go on; then it is at the new version. Once no row is left to go it
has sent the active ones exactly once, ended at the time of the clock. -/
theorem versions_apart {before after : List Turn} (hbefore : (new k).Path before t.worker)
    (ht : t.IsStep) (hafter : t.worker'.Path after v)
    (hpending : ∀ s ∈ before ++ t :: after, ∀ e ∈ s.worker.handle.pending,
      1 ≤ e.rule.version) :
    (∀ id e, t.Creates id → (∀ s ∈ after, s.Holds id) → v.phase.called? = some e →
      (∃ f, t.applied? = some f) ∧
        ∀ s ∈ t :: after, ∀ f, s.applied? = some f → f.rule.version = e.rule.version) ∧
    ∀ next, (∃ s ∈ before, s.worker'.version ≠ s.worker.version) → t.Renews next →
      (t.shared'.cache.ofRule k).values = [] ∧
      ((∀ s ∈ after, s.worker.phase.next? ≠ none) →
        (v.phase.next? ≠ none →
          v.version = t.worker.version ∧
          after.length ≤ (t.shared.cache.ofRule k).values.length ∧
          ∀ root d, ∃ input, (v.step? root input d).isSome = true) ∧
        (v.phase.next? = none → next.version? = some v.version) ∧
        ((∀ erasure, v.phase ≠ .erasing erasure next) →
          ∃ s ∈ t :: after, (t :: after).flatMap sent =
            s.shared.closings k (t.shared.cache.ofRule k).values)) := by
  rw [List.forall_mem_append] at hpending
  obtain ⟨hpending₁, hpending₂⟩ := hpending
  have hkey : t.worker.key = k := hbefore.key
  have hstart : (new k).Versioned := versioned_new k
  have hw : t.worker.Versioned := (hbefore.succeeds hstart hpending₁).versioned
  refine ⟨fun id e => applied_of_called ht hw hafter hpending₂, fun next hadopted hrenews => ?_⟩
  have hpos := hbefore.pos_of_adopted hstart hpending₁ hadopted
  obtain ⟨hids, hclears⟩ := clears_of_renews ht hkey hpos hrenews
  refine ⟨Cache.values_eq_nil_iff.2 hids, fun hclearing => ?_⟩
  have hkey' : t.worker'.key = k := ht.key.trans hkey
  have hend := hclears.path hkey' hrenews.isSome_version? hafter hclearing
  refine ⟨fun hv => ?_, fun hv => ?_, fun hv => ?_⟩
  · obtain ⟨hversion, hlength⟩ := hend.version_eq hv
    exact ⟨hversion, Nat.le_of_succ_le_succ hlength, hend.exists_step hv⟩
  · cases hend with
    | erasing hphase =>
        rw [hphase] at hv
        cases hv
    | closing hphase =>
        rw [hphase] at hv
        cases hv
    | renewed _ hversion _ => exact hversion
  · cases hend with
    | erasing hphase => exact absurd hphase (hv _)
    | closing _ _ _ hsent => exact hsent
    | renewed _ _ hsent => exact hsent

end Worker

namespace System

open Worker (Turn)

/-- A rule at a version. -/
def listed (version : Int) : RuleSet :=
  .ofListing [{ uid := "b", intervalSeconds := 10, version }] ∅

/-- Its routine has started. -/
def started : System := ((new {} {} .epoch).tick .epoch (some (listed 1))).2

/-- The first evaluation finds a breach. -/
def breaching : List Action :=
  [.release 0, .worker 0 .wake, .worker 0 .look, .worker 0 (.built (.ok ())),
   .worker 0 (.evaluated (.ok [{ labels := ∅, status := .alerting, time := .epoch }]))]

/-- The alert is sent, and ten seconds later there is an evaluation at `version`. -/
def listedAgain (version : Int) : List Action :=
  [.worker 0 .delivered, .setClock ⟨10 * nanosPerSecond⟩, .elapse 10000,
   .tick ⟨10 * nanosPerSecond⟩ (some (listed version)), .release 1]

/-- The routine takes the evaluation and asks for an evaluator. -/
def lookingAgain : List Action := [.worker 0 .wake, .worker 0 .look]

theorem reached_started : started.Reached :=
  (Reached.new {} {} .epoch).step (a := .tick .epoch (some (listed 1))) ⟨_, _, rfl⟩ rfl

theorem isListed_breaching : ∀ a ∈ breaching, a.IsListed := by
  simp [breaching, Action.IsListed]

theorem isListed_listedAgain (version : Int) : ∀ a ∈ listedAgain version, a.IsListed := by
  simp only [listedAgain, List.forall_mem_cons]
  exact ⟨trivial, trivial, trivial, ⟨_, _, rfl⟩, trivial, List.forall_mem_nil _⟩

/-- The instance is still there as the rule is evaluated again, and goes as the rule is
evaluated at another version. -/
theorem versions_apart_listedAgain :
    (∃ (before after : List Turn) (t : Turn) (v : Worker) (id : String) (e : Evaluation),
      (Worker.new ⟨1, "b"⟩).Path before t.worker ∧ t.IsStep ∧ t.worker'.Path after v ∧
      t.Creates id ∧ (∀ s ∈ after, s.Holds id) ∧ v.phase.called? = some e ∧
      ∀ s ∈ t :: after, ∀ f, s.applied? = some f → f.rule.version = e.rule.version) ∧
    ∃ (before after : List Turn) (t : Turn) (v : Worker) (e : Evaluation),
      (Worker.new ⟨1, "b"⟩).Path before t.worker ∧ t.IsStep ∧ t.worker'.Path after v ∧
      (∃ s ∈ before, s.worker'.version ≠ s.worker.version) ∧ t.Renews (.evaluate e) ∧
      (t.shared'.cache.ofRule ⟨1, "b"⟩).values = [] ∧ e.rule.version = v.version ∧
      ((t :: after).flatMap Turn.sent).length = 1 ∧
      ∃ s ∈ t :: after, (t :: after).flatMap Turn.sent =
        s.shared.closings ⟨1, "b"⟩ (t.shared.cache.ofRule ⟨1, "b"⟩).values := by
  have hentry : started.registry.entries[0]? = some (.new ⟨1, "b"⟩) := rfl
  constructor
  · have hrun : ((started.around 0 breaching .proceed (listedAgain 1 ++ lookingAgain)).bind
        fun (before, t, after, v) => (t.shared'.cache.ids ⟨1, "b"⟩).head?.bind fun id =>
          v.phase.called?.map fun _ =>
            decide (∀ s ∈ before ++ t :: after, ∀ e ∈ s.worker.handle.pending,
              1 ≤ e.rule.version) &&
            decide (t.Creates id ∧ ∀ s ∈ after, s.Holds id)) = some true := by
      decide +kernel
    obtain ⟨⟨before, t, after, v⟩, haround, h⟩ := Option.bind_eq_some_iff.1 hrun
    obtain ⟨id, -, h⟩ := Option.bind_eq_some_iff.1 h
    obtain ⟨e, hcalled, h⟩ := Option.map_eq_some_iff.1 h
    obtain ⟨hpending, hholds⟩ := Bool.and_eq_true_iff.1 h
    obtain ⟨hcreates, hholds⟩ := of_decide_eq_true hholds
    have hlisted : ∀ a ∈ listedAgain 1 ++ lookingAgain, a.IsListed :=
      List.forall_mem_append.2 ⟨isListed_listedAgain 1, by simp [lookingAgain, Action.IsListed]⟩
    obtain ⟨hbefore, ht, hafter⟩ :=
      paths_of_around reached_started isListed_breaching hlisted hentry haround
    obtain ⟨happlied, -⟩ := Worker.versions_apart hbefore ht hafter (of_decide_eq_true hpending)
    exact ⟨before, after, t, v, id, e, hbefore, ht, hafter, hcreates, hholds, hcalled,
      (happlied id e hcreates hholds hcalled).2⟩
  · have hrun : ((started.around 0 (breaching ++ .worker 0 .proceed :: listedAgain 2) .wake
        [.worker 0 (.stored 0 true), .worker 0 .delivered]).bind
        fun (before, t, after, v) => t.worker.handle.pending.map fun e =>
          decide (∀ s ∈ before ++ t :: after, ∀ e ∈ s.worker.handle.pending,
            1 ≤ e.rule.version) &&
          decide (∃ s ∈ before, s.worker'.version ≠ s.worker.version) &&
          decide (t.worker'.handle.pending = none ∧ e.rule.version ≠ t.worker.version) &&
          decide (∀ s ∈ after, s.worker.phase.next?.isSome = true) &&
          v.phase.next?.isNone && ((t :: after).flatMap Turn.sent).length == 1) = some true := by
      decide +kernel
    obtain ⟨⟨before, t, after, v⟩, haround, h⟩ := Option.bind_eq_some_iff.1 hrun
    obtain ⟨e, he, h⟩ := Option.map_eq_some_iff.1 h
    simp only [Bool.and_eq_true, decide_eq_true_eq, Option.isNone_iff_eq_none, beq_iff_eq] at h
    obtain ⟨⟨⟨⟨⟨hpending, hadopted⟩, htaken, hother⟩, hclearing⟩, hover⟩, hone⟩ := h
    have hrenews : t.Renews (.evaluate e) := .evaluation he htaken hother
    have hclears : ∀ s ∈ after, s.worker.phase.next? ≠ none := fun s hs =>
      Option.isSome_iff_ne_none.1 (hclearing s hs)
    have hlisted : ∀ a ∈ breaching ++ .worker 0 .proceed :: listedAgain 2, a.IsListed :=
      List.forall_mem_append.2
        ⟨isListed_breaching, List.forall_mem_cons.2 ⟨trivial, isListed_listedAgain 2⟩⟩
    have hanswers : ∀ a ∈ [Action.worker 0 (.stored 0 true), .worker 0 .delivered],
        a.IsListed := by
      simp [Action.IsListed]
    obtain ⟨hbefore, ht, hafter⟩ :=
      paths_of_around reached_started hlisted hanswers hentry haround
    obtain ⟨-, hrenewal⟩ := Worker.versions_apart hbefore ht hafter hpending
    obtain ⟨hnone, hend⟩ := hrenewal (.evaluate e) hadopted hrenews
    obtain ⟨-, hversion, hsent⟩ := hend hclears
    have hrows : ∀ erasure, v.phase ≠ .erasing erasure (.evaluate e) := by
      intro erasure hphase
      rw [hphase] at hover
      cases hover
    exact ⟨before, after, t, v, e, hbefore, ht, hafter, hadopted, hrenews, hnone,
      Option.some.inj (hversion hover), hone, hsent hrows⟩

end System

end Vigil
