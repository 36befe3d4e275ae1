import Mathlib.Data.List.Chain
import Vigil.Proofs.Round.Throttle

/-!
# What a reset closes

When the instances of a rule are dropped, a closing batch ends the active ones. It says
nothing of the others, so an alert that the notifier still holds open is ended only if its
instance is there and goes under the same labels. The labels of an alert depend on the
state. So the batch ends the last alert under some labels if its instance has not been
dropped as stale since and is in the same state (`Cache.closing_covers`). A resolution needs
no end, since it was sent with its own.
-/

namespace Vigil

namespace Instance

/-- What two reports of an instance that follow on each other have in common: it keeps its
labels, and between alerting and normal it is resolved. -/
structure Leads (p q : Instance) : Prop where
  labels : q.labels = p.labels
  resolved : p.status = .alerting → q.status = .normal → q.resolved = true

/-- Two of the reports that follow on each other are of a resolution. -/
def Resolves (is : List Instance) : Prop :=
  ∃ p q, [p, q] <:+: is ∧ p.status = .alerting ∧ q.status = .normal

theorem leads_refl (i : Instance) : i.Leads i := by
  refine ⟨rfl, fun halerting hnormal => ?_⟩
  cases halerting.symm.trans hnormal

theorem leads_next (i : Instance) {a : Application} (ha : a.counts = true) (hc : a.InCalendar) :
    i.Leads (i.next a) := by
  obtain ⟨transition, h⟩ := i.apply_eq_moved ha hc
  obtain ⟨⟨-, hlabels⟩, hresolved, -⟩ := apply_eq_moved_fields h
  refine ⟨hlabels, fun halerting hnormal => ?_⟩
  rw [hresolved, halerting, hnormal]
  rfl

/-- Reports that lead from one to the next are about the same labels. -/
theorem labels_eq_of_leads {i j : Instance} {is : List Instance} (h : (i :: is).IsChain Leads)
    (hj : j ∈ i :: is) : j.labels = i.labels := by
  induction is generalizing i with
  | nil => rw [List.mem_singleton.1 hj]
  | cons q is ih =>
      obtain ⟨hfirst, hrest⟩ := List.isChain_cons_cons.1 h
      rcases List.mem_cons.1 hj with rfl | hj
      · rfl
      · exact (ih hrest hj).trans hfirst.labels

/-- The last of the reports, or else the entry there was before them. -/
theorem getLast?_story (known : Option Instance) (is : List Instance) :
    (known.toList ++ is).getLast? = is.getLast?.or known := by
  rw [List.getLast?_append]
  cases known <;> rfl

/-- A resolution is marked as one. -/
theorem exists_resolved {i : Instance} {is : List Instance} (h : (i :: is).IsChain Leads)
    (hr : Resolves (i :: is)) :
    ∃ q ∈ is, q.resolved = true ∧ q.status = .normal ∧ q.labels = i.labels := by
  obtain ⟨p, q, hpq, halerting, hnormal⟩ := hr
  have hchain : [p, q].IsChain Leads := List.IsChain.infix h hpq
  have hresolved : q.resolved = true :=
    (List.isChain_pair.1 hchain).resolved halerting hnormal
  have hq : q ∈ is := by
    obtain ⟨before, after, heq⟩ := hpq
    cases before with
    | nil =>
        obtain ⟨-, rfl⟩ := List.cons.inj heq
        exact List.mem_cons_self
    | cons r before =>
        obtain ⟨-, rfl⟩ := List.cons.inj heq
        simp
  exact ⟨q, hq, hresolved, hnormal, labels_eq_of_leads h (List.mem_cons_of_mem i hq)⟩

end Instance

open Instance (Leads Resolves)

/-! ## From report to report -/

namespace Sweep

variable {r : Rule} {extra : Labels} {p : TransitionPolicy} {history : Nat} {rs : RuleInstances}
  {vs : List Verdict}

/-- The entry that a sweep starts from and its reports lead from one to the next. -/
theorem leads_reports (id : String) (h : (run r extra p history rs vs).failed = false)
    (hrs : rs.Filed r.key) :
    ((rs.find? id).toList ++ (run r extra p history rs vs).reports id).IsChain Leads := by
  induction vs using List.reverseRecOn with
  | nil =>
      show ((rs.find? id).toList ++ []).IsChain Leads
      cases rs.find? id <;> simp
  | append_singleton vs v ih =>
      obtain ⟨hs, hcases⟩ := find?_run_snoc id h
      rw [reports_run_snoc id h hrs, ← List.append_assoc]
      split
      swap
      · rw [List.append_nil]
        exact ih hs
      cases hentry : (run r extra p history rs (vs ++ [v])).instances.find? id with
      | none =>
          rw [Option.toList_none, List.append_nil]
          exact ih hs
      | some j =>
      refine (ih hs).append (List.isChain_singleton j) fun i hi j' hj => ?_
      obtain rfl : j = j' := by simpa using hj
      -- the last report so far is the entry that the verdict found
      have hfound : (run r extra p history rs vs).instances.find? id = some i := by
        rw [find?_run_eq_getLast? id hs hrs, ← Instance.getLast?_story]
        exact hi
      rcases hcases with ⟨-, hsame⟩ | ⟨-, hcounts, hc, hmoved⟩
      · obtain rfl := Option.some.inj (hfound.symm.trans (hsame.symm.trans hentry))
        exact i.leads_refl
      · rw [hfound, hentry] at hmoved
        obtain rfl := Option.some.inj hmoved
        exact i.leads_next (Application.counts_iff.2 hcounts) hc

end Sweep

namespace Cache

variable {settings : StateSettings} {k : RuleKey} {c c' : Cache} {f : Finding} {x : Handled}
  {fs : List Finding} {xs : List Handled} {id : String}

/-- So do those of an evaluation, and the last of them stays as the entry unless it is
dropped. -/
theorem leads_handle (hc : (c.ofRule f.rule.key).Filed f.rule.key)
    (h : c.handle? settings f = some (x, c')) (hkept : x.evicts id = false) :
    ((c.get? f.rule.key id).toList ++ x.reports id).IsChain Leads ∧
      ∀ last, ((c.get? f.rule.key id).toList ++ x.reports id).getLast? = some last →
        ∃ sentAt, c'.get? f.rule.key id = some { last with sentAt } := by
  constructor
  · obtain ⟨p, -, hs, hreports⟩ := reports_of_handle h
    rw [hreports]
    exact Sweep.leads_reports id hs hc
  · intro last hlast
    rw [Instance.getLast?_story] at hlast
    rw [get?_handle hc h, hkept, if_neg Bool.false_ne_true, hlast]
    exact ⟨_, rfl⟩

/-- **From report to report.** Over a run that does not drop it, an instance is led from
report to report, and the last one stays as its entry. -/
theorem leads_handleAll (hc : (c.ofRule k).Filed k) (hfs : ∀ f ∈ fs, f.rule.key = k)
    (h : c.handleAll? settings fs = some (xs, c')) (hkept : ∀ z ∈ xs, z.evicts id = false) :
    ((c.get? k id).toList ++ Handled.reported id xs).IsChain Leads ∧
      ∀ last, ((c.get? k id).toList ++ Handled.reported id xs).getLast? = some last →
        ∃ sentAt, c'.get? k id = some { last with sentAt } := by
  induction fs generalizing c xs with
  | nil =>
      cases h
      refine ⟨by cases c'.get? k id <;> simp [Handled.reported],
        fun last hlast => ⟨last.sentAt, ?_⟩⟩
      rwa [Instance.getLast?_story] at hlast
  | cons f fs ih =>
      obtain ⟨x, swept, xs, hx, hxs, rfl⟩ := handleAll?_cons_eq_some_iff.1 h
      obtain rfl := hfs f List.mem_cons_self
      obtain ⟨hone, hentry⟩ := leads_handle hc hx (hkept x List.mem_cons_self)
      obtain ⟨hrest, hlast⟩ := ih (filed_handle hc hx)
        (fun g hg => hfs g (List.mem_cons_of_mem f hg)) hxs
        fun z hz => hkept z (List.mem_cons_of_mem x hz)
      have hreported : Handled.reported id (x :: xs) = x.reports id ++ Handled.reported id xs := rfl
      rw [hreported, ← List.append_assoc]
      constructor
      · refine hone.append hrest.right_of_append fun i hi j hj => ?_
        -- the entry between the evaluations is the last report but for its date
        obtain ⟨sentAt, hi⟩ := hentry i hi
        rw [hi] at hrest
        obtain ⟨later, hlater⟩ := List.head?_eq_some_iff.1 hj
        rw [hlater] at hrest
        have hleads := (List.isChain_cons_cons.1 hrest).1
        exact ⟨hleads.labels, hleads.resolved⟩
      · intro last h
        rw [List.getLast?_append] at h
        rcases Option.or_eq_some_iff.1 h with h | ⟨hnone, h⟩
        · exact hlast last (by rw [List.getLast?_append, h, Option.some_or])
        · obtain ⟨sentAt, hswept⟩ := hentry last h
          obtain ⟨sentAt', h⟩ := hlast { last with sentAt } (by
            rw [List.getLast?_append, hnone, hswept]
            rfl)
          exact ⟨sentAt', h⟩

/-- From a report that is sent to the entry at the end of the run, reports lead from one to
the next as long as the instance is not dropped. -/
theorem exists_last_since (hc : (c.ofRule k).Filed k) (hfs : ∀ f ∈ fs, f.rule.key = k)
    {before after : List Handled} (h : c.handleAll? settings fs = some (before ++ x :: after, c'))
    {a : Instance} {earlier later : List Instance}
    (hx : x.round.processed = earlier ++ a :: later)
    (hsent : a.needsSending? settings.resendDelay = some true)
    (hkept : ∀ z ∈ after, z.evicts a.id = false) :
    let since := later.filter (·.id == a.id) ++ Handled.reported a.id after
    (a :: since).IsChain Leads ∧
      ∃ last ∈ a :: since, ∃ sentAt, c'.get? k a.id = some { last with sentAt } := by
  intro since
  obtain ⟨earlierRun, f, laterRun, c₁, c₂, rfl, hbefore, hf, hafter⟩ := handleAll?_split h
  have hfiled := (sentAt_handleAll hc (fun g hg => hfs g (List.mem_append_left _ hg)) hbefore).1
  have hreports : x.reports a.id =
      earlier.filter (·.id == a.id) ++ a :: later.filter (·.id == a.id) := by
    unfold Handled.reports
    rw [hx, List.filter_append, List.filter_cons_of_pos (by simp)]
  have hstays : ∀ z ∈ x :: after, z.evicts a.id = false := by
    have halert : a ∈ x.alerts a.id := by
      rw [alerts_of_handle hf, List.mem_filter, hreports, hsent]
      simp
    rintro z hz
    rcases List.mem_cons.1 hz with rfl | hz
    · exact evicts_eq_false_of_mem_alerts hc hfs h halert
    · exact hkept z hz
  obtain ⟨hstory, hentry⟩ := leads_handleAll hfiled
    (fun g hg => hfs g (List.mem_append_right _ hg))
    (handleAll?_cons_eq_some_iff.2 ⟨x, c₂, after, hf, hafter, rfl⟩) hstays
  have hsplit : (c₁.get? k a.id).toList ++ Handled.reported a.id (x :: after) =
      ((c₁.get? k a.id).toList ++ earlier.filter (·.id == a.id)) ++ a :: since := by
    unfold since Handled.reported
    rw [List.flatMap_cons, hreports]
    simp
  rw [hsplit] at hstory hentry
  have hlast := List.getLast?_eq_some_getLast (List.cons_ne_nil a since)
  exact ⟨hstory.right_of_append, _, List.mem_of_getLast? hlast,
    hentry _ (by rw [List.getLast?_append, hlast, Option.some_or])⟩

end Cache

/-! ## The closing batch -/

namespace Alert

/-- The labels of an alert are those of its instance under the name for its state. -/
theorem alertLabels_congr {i j : Instance} (hs : i.status = j.status) (hl : i.labels = j.labels) :
    alertLabels i = alertLabels j := by
  unfold alertLabels
  rw [hs, hl]

/-- A resolution goes under the labels of the alert that it ends. -/
theorem alertLabels_of_resolution {i j : Instance} (hi : i.status = .alerting)
    (hj : j.status = .normal) (hl : j.labels = i.labels) : alertLabels j = alertLabels i := by
  unfold alertLabels
  rw [hi, hj]
  exact hl

/-- An alert that is open after its evaluation is about an active instance. -/
theorem isActive_of_open {i : Instance} {delay : Span} {url : Option String} {now ends : Moment}
    (hsent : i.needsSending? delay = some true) (hends : (ofInstance i url).endsAt = some ends)
    (hopen : now < ends) (hclock : i.lastEvaluation ≤ now) : i.status.isActive = true := by
  rcases (Instance.needsSending?_eq_some_iff hsent).1 rfl with hresolved | ⟨hactive, -⟩
  · have hended : i.lastEvaluation = ends := by simpa [ofInstance, hresolved] using hends
    exact absurd hopen (Int.not_lt.2 (hended ▸ hclock))
  · exact hactive

/-- The closing batch ends every active instance under the labels of its alerts. -/
theorem exists_closing {removed : List Instance} {i : Instance} (hi : i ∈ removed)
    (hactive : i.status.isActive = true) (now : Moment) (url : Option String) :
    ∃ b ∈ closing removed now url, b.labels = alertLabels i ∧ b.endsAt = some now :=
  ⟨{ ofInstance i url with endsAt := some now },
    List.mem_map.2 ⟨i, List.mem_filter.2 ⟨hi, hactive⟩, rfl⟩, rfl, rfl⟩

end Alert

/-- A routine sends the closing batch of what was removed, unless it is empty. -/
theorem Worker.closeAlerts_of_mem (w : Worker)
    {removed : List Instance} (next : Resume) {d : Shared} {b : Alert}
    (hb : b ∈ Alert.closing removed d.clock d.scheduler.appUrl) :
    w.closeAlerts removed next d = ({ w with phase := .closing next },
      d.send w.key (Alert.closing removed d.clock d.scheduler.appUrl)) := by
  unfold closeAlerts
  dsimp only
  rw [if_neg]
  rw [List.isEmpty_iff]
  exact List.ne_nil_of_mem hb

namespace Cache

variable {settings : StateSettings} {k : RuleKey} {c c' : Cache} {fs : List Finding}

/-- **The closing batch.** Over a run of evaluations the alert `a` is sent, and what is sent
after it goes under other labels. If it is still open when the rule is reset at `now`, no
earlier than its evaluation, then the closing batch ends it, as long as its instance has not
been dropped since and is in the state of the alert unless it has been resolved. -/
theorem closing_covers (hc : (c.ofRule k).Filed k) (hfs : ∀ f ∈ fs, f.rule.key = k)
    {before after : List Handled} {x : Handled}
    (h : c.handleAll? settings fs = some (before ++ x :: after, c'))
    {a : Instance} {earlier later : List Instance}
    (hx : x.round.processed = earlier ++ a :: later)
    (hsent : a.needsSending? settings.resendDelay = some true)
    (hlatest : ∀ b ∈ later ++ after.flatMap (·.round.processed),
      b.needsSending? settings.resendDelay = some true →
        Alert.alertLabels b ≠ Alert.alertLabels a)
    {now ends : Moment} {url : Option String}
    (hends : (Alert.ofInstance a url).endsAt = some ends) (hopen : now < ends)
    (hclock : a.lastEvaluation ≤ now) (hkept : ∀ z ∈ after, z.evicts a.id = false)
    (hstate : ∀ i, c'.get? k a.id = some i → i.status ≠ a.status → a.status = .alerting ∧
      Resolves (a :: (later.filter (·.id == a.id) ++ Handled.reported a.id after)))
    {d : Shared} (hd : d.cache = c') (rule : Option Rule) :
    ∃ b ∈ Alert.closing (d.erase k rule).1.removed now url,
      b.labels = (Alert.ofInstance a url).labels ∧ b.endsAt = some now := by
  have hactive : a.status.isActive = true := Alert.isActive_of_open hsent hends hopen hclock
  obtain ⟨hsince, last, hlast, sentAt, hi⟩ := exists_last_since hc hfs h hx hsent hkept
  have hlabels : last.labels = a.labels := Instance.labels_eq_of_leads hsince hlast
  have hstatus : last.status = a.status := by
    by_contra hne
    obtain ⟨halerting, hresolves⟩ := hstate _ hi hne
    obtain ⟨q, hq, hresolved, hnormal, hq'⟩ := Instance.exists_resolved hsince hresolves
    have hreported : q ∈ later ++ after.flatMap (·.round.processed) := by
      rcases List.mem_append.1 hq with hq | hq
      · exact List.mem_append_left _ (List.mem_filter.1 hq).1
      · obtain ⟨z, hz, hq⟩ := List.mem_flatMap.1 hq
        exact List.mem_append_right _ (List.mem_flatMap.2 ⟨z, hz, (List.mem_filter.1 hq).1⟩)
    have hdue : q.needsSending? settings.resendDelay = some true := by
      rw [Instance.needsSending?, if_pos hresolved]
    exact hlatest q hreported hdue (Alert.alertLabels_of_resolution halerting hnormal hq')
  have hremoved : { last with sentAt } ∈ (d.erase k rule).1.removed := by
    subst hd
    exact Table.mem_values_iff.2 ⟨a.id, hi⟩
  have hfiring : last.status.isActive = true := hstatus ▸ hactive
  obtain ⟨b, hb, hb', hnow⟩ := Alert.exists_closing hremoved hfiring now url
  exact ⟨b, hb, hb'.trans (Alert.alertLabels_congr hstatus hlabels), hnow⟩

/-- A breach that goes on. -/
def steadyBreach : List Finding := verdictEach [.alerting, .alerting]

theorem closing_covers_breach :
    ∃ x z c' a b, ({} : Cache).handleAll? {} steadyBreach = some ([x, z], c') ∧
      x.round.processed = [a] ∧ a.needsSending? (StateSettings.resendDelay {}) = some true ∧
      (Alert.ofInstance a none).endsAt = some ⟨90 * nanosPerSecond⟩ ∧
      b ∈ Alert.closing (({ clock := .epoch, cache := c' } : Shared).erase ({} : Rule).key
        none).1.removed ⟨15 * nanosPerSecond⟩ none ∧
      b.labels = (Alert.ofInstance a none).labels ∧ b.endsAt = some ⟨15 * nanosPerSecond⟩ := by
  have hreports : (({} : Cache).handleAll? {} steadyBreach).map (fun y => y.1.map fun x =>
      (x.round.processed.map fun i => (i.id, i.needsSending? (StateSettings.resendDelay {})),
        x.evicts soleId)) =
      some [([(soleId, some true)], false), ([(soleId, some false)], false)] := by
    decide +kernel
  have hstates : (({} : Cache).handleAll? {} steadyBreach).map (fun y =>
      ((y.1.flatMap (·.round.processed)).map fun i =>
        (i.status, i.lastEvaluation, (Alert.ofInstance i none).endsAt),
      (y.2.get? ({} : Rule).key soleId).map (·.status))) =
      some ([(.alerting, .epoch, some ⟨90 * nanosPerSecond⟩),
        (.alerting, ⟨10 * nanosPerSecond⟩, some ⟨100 * nanosPerSecond⟩)], some .alerting) := by
    decide +kernel
  obtain ⟨⟨xs, c'⟩, hxs, h⟩ := Option.map_eq_some_iff.1 hreports
  obtain ⟨x, ys, rfl, hx, hys⟩ := List.map_eq_cons_iff.1 h
  obtain ⟨z, rfl, hz⟩ := List.map_eq_singleton_iff.1 hys
  obtain ⟨hx, -⟩ := Prod.mk.inj hx
  obtain ⟨hz, hkept⟩ := Prod.mk.inj hz
  obtain ⟨a, hx, ha⟩ := List.map_eq_singleton_iff.1 hx
  obtain ⟨i, hz, hi⟩ := List.map_eq_singleton_iff.1 hz
  obtain ⟨hid, hsent⟩ := Prod.mk.inj ha
  rw [hxs, Option.map_some] at hstates
  obtain ⟨hfirst, hentry⟩ := Prod.mk.inj (Option.some.inj hstates)
  obtain ⟨⟨hstatus, htime, hends⟩, -⟩ : (a.status = .alerting ∧ a.lastEvaluation = .epoch ∧
      (Alert.ofInstance a none).endsAt = some ⟨90 * nanosPerSecond⟩) ∧ _ := by
    simpa [hx, hz] using hfirst
  have hlatest : ∀ b ∈ [] ++ [z].flatMap (·.round.processed),
      b.needsSending? (StateSettings.resendDelay {}) = some true →
        Alert.alertLabels b ≠ Alert.alertLabels a := by
    intro b hb hdue
    obtain rfl : b = i := by simpa [hz] using hb
    cases (congrArg Prod.snd hi).symm.trans hdue
  have hstate : ∀ j, c'.get? ({} : Rule).key a.id = some j → j.status ≠ a.status →
      a.status = .alerting ∧
        Resolves (a :: ([].filter (·.id == a.id) ++ Handled.reported a.id [z])) := by
    intro j hj hne
    rw [hid] at hj
    rw [hj] at hentry
    exact absurd ((Option.some.inj hentry).trans hstatus.symm) hne
  have hrun : ({} : Cache).handleAll? {} steadyBreach = some ([] ++ x :: [z], c') := hxs
  have hprocessed : x.round.processed = [] ++ a :: [] := hx
  have hopen : (⟨15 * nanosPerSecond⟩ : Moment) < ⟨90 * nanosPerSecond⟩ := by decide
  have hclock : a.lastEvaluation ≤ ⟨15 * nanosPerSecond⟩ := by
    rw [htime]
    decide
  have hstays : ∀ y ∈ [z], y.evicts a.id = false := fun y hy => by
    rw [List.mem_singleton.1 hy, hid]
    exact hkept
  have hcache : ({ clock := .epoch, cache := c' } : Shared).cache = c' := rfl
  obtain ⟨b, hb, hlabels, hnow⟩ := closing_covers (filed_empty _)
    (fun f => key_of_mem_verdictEach) hrun hprocessed hsent hlatest hends hopen hclock hstays
    hstate hcache none
  exact ⟨x, z, c', a, b, hxs, hx, hsent, hends, hb, hlabels, hnow⟩

/-- What a run sent, with the labels and the end of each alert, and the labels of the closing
batch when the rule is reset at `now`. -/
def openings (fs : List Finding) (k : RuleKey) (now : Moment) :
    Option (List (Labels × Option Moment) × List Labels) :=
  (({} : Cache).handleAll? {} fs).map fun (xs, c') =>
    ((xs.flatMap (·.sent)).map fun i =>
      ((Alert.ofInstance i none).labels, (Alert.ofInstance i none).endsAt),
    (Alert.closing (c'.removeRule k).1 now none).map (·.labels))

/-- A host breaches, and 30 seconds later only another one is seen. -/
def dropOut : List Finding :=
  [("web", .alerting, 0), ("db", .normal, 30)].map fun (host, status, seconds) =>
    { rule := {}
      verdicts := [{ labels := (∅ : Labels).insert "host" host, status
                     time := ⟨seconds * nanosPerSecond⟩ }]
      extra := ∅
      now := ⟨seconds * nanosPerSecond⟩ }

/-- The batch ends no alert of an instance that was dropped, none that goes under another
name by now, and no resolution that is dated after the reset. -/
theorem openings_not_covered :
    openings dropOut ({} : Rule).key ⟨31 * nanosPerSecond⟩ =
        some ([((∅ : Labels).insert "host" "web", some ⟨90 * nanosPerSecond⟩)], []) ∧
      openings (verdictEach [.alerting, .noData]) ({} : Rule).key ⟨15 * nanosPerSecond⟩ =
        some ([(∅, some ⟨90 * nanosPerSecond⟩)],
          [(∅ : Labels).insert alertNameLabel Alert.noDataName]) ∧
      openings (verdictEach [.alerting, .normal]) ({} : Rule).key ⟨5 * nanosPerSecond⟩ =
        some ([(∅, some ⟨90 * nanosPerSecond⟩), (∅, some ⟨10 * nanosPerSecond⟩)], []) := by
  refine ⟨?_, ?_, ?_⟩ <;> decide +kernel

end Cache

end Vigil
