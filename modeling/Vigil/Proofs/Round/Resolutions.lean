import Vigil.Proofs.Round.Delivery

/-!
# Resolutions and the notifier

An instance is resolved by the verdict that takes it from alerting to normal, and it is
sent with that verdict whatever its delay. It stays marked as resolved until a verdict
comes that counts. A pending verdict in between counts for nothing, but names the
instance, and sends it as resolved once more (`Sweep.isEcho`). So the resolved instances
that are sent are as many as the resolutions and the echoes together
(`Cache.resolutions_of_handleAll`), and each resolution is sent once if no pending verdict
names the instance.
-/

namespace Vigil

/-- Every instance stands under its own identity, which is that of its labels. -/
def RuleInstances.Keyed (rs : RuleInstances) : Prop :=
  ∀ id i, rs.find? id = some i → i.id = id ∧ i.labels.id = id

/-- The change took the instance under `id` from alerting to normal. -/
def Change.isResolution (id : String) (c : Change) : Bool :=
  c.labels.id == id && c.transition.previous.status == .alerting &&
    c.transition.current.status == .normal

/-- The instance is the one under `id`, and resolved. -/
def Instance.isResolved (id : String) (i : Instance) : Bool := i.id == id && i.resolved

theorem Instance.apply_eq_moved_fields {i after : Instance} {r : Rule} {v : Verdict}
    {p : TransitionPolicy} {t : Transition} (h : i.apply r v p = (after, .moved t)) :
    (after.id = i.id ∧ after.labels = i.labels) ∧
      after.resolved = (i.status == .alerting && after.status == .normal) ∧
      t = ⟨i.standing, after.standing⟩ := by
  unfold apply at h
  split at h
  · cases h
  dsimp only at h
  split at h
  · cases h
  · cases h
    exact ⟨⟨rfl, rfl⟩, rfl, rfl⟩

/-- A change of state is a change of standing. -/
theorem Transition.changed_of_status_ne {t : Transition}
    (h : t.previous.status ≠ t.current.status) : t.changed = true :=
  bne_iff_ne.2 fun heq => h (congrArg Standing.status heq)

namespace Sweep

variable {r : Rule} {extra : Labels} {p : TransitionPolicy} {history : Nat} {id : String}
  {s : Sweep} {v : Verdict}

/-- The verdict is a pending one that finds the instance under `id` resolved. -/
def isEcho (r : Rule) (extra : Labels) (id : String) (s : Sweep) (v : Verdict) : Bool :=
  v.status == .pending && r.idOf extra v == id && (s.instances.find? id).any (·.resolved)

/-- How many of the verdicts are pending ones that find the instance under `id` resolved. -/
def echoes (r : Rule) (extra : Labels) (p : TransitionPolicy) (history : Nat) (id : String) :
    Sweep → List Verdict → Nat
  | _, [] => 0
  | s, v :: vs =>
    (s.isEcho r extra id v).toNat +
      echoes r extra p history id (take r extra p history s v) vs

/-- The instance that a verdict is applied to. -/
def subject (r : Rule) (extra : Labels) (history : Nat) (s : Sweep) (v : Verdict) : Instance :=
  (s.instances.find? (r.idOf extra v)).getD (.new r (r.expand extra v.labels) history)

/-- A verdict that counts and does not fail the sweep moves its instance. -/
theorem take_eq_moved (hs : s.failed = false) (hv : v.status ≠ .pending)
    (h : (take r extra p history s v).failed = false) :
    ∃ after t, (s.subject r extra history v).apply r v p = (after, .moved t) ∧
      take r extra p history s v = { s with
        instances := s.instances.insert (r.idOf extra v) after
        seen := s.seen ++ [r.idOf extra v]
        processed := s.processed ++ [after]
        changes := if t.changed then s.changes ++ [⟨after.labels, v.time, t⟩] else s.changes } := by
  have hw : Workable r extra p history s.instances v := by
    by_contra hw
    cases h.symm.trans ((failed_take_iff hs v).2 hw)
  obtain ⟨hc, hroom⟩ := hw hv
  obtain ⟨t, ht⟩ := (s.subject r extra history v).apply_eq_moved (a := v.under r p)
    (Application.counts_iff.2 hv) hc
  refine ⟨_, t, ht, ?_⟩
  have htake : take r extra p history s v =
      settle { s with seen := s.seen ++ [r.idOf extra v] } r p v (r.idOf extra v)
        (s.subject r extra history v) := by
    have hsubject := exists_subject hroom
    unfold Rule.idOf at hsubject
    simp only [take, hs, hv, hsubject, Rule.idOf, subject]
    rfl
  rw [htake]
  simp only [settle, Verdict.under] at ht ⊢
  rw [ht]

/-- It files and answers with the instance that it moves, and notes the change if there is
one. -/
theorem take_of_moved (hs : s.failed = false) (hv : v.status ≠ .pending)
    (h : (take r extra p history s v).failed = false) :
    ∃ after t, (s.subject r extra history v).apply r v p = (after, .moved t) ∧
      (take r extra p history s v).instances = s.instances.insert (r.idOf extra v) after ∧
      (take r extra p history s v).processed = s.processed ++ [after] ∧
      (take r extra p history s v).changes =
        s.changes ++ if t.changed then [⟨after.labels, v.time, t⟩] else [] := by
  obtain ⟨after, t, happly, htake⟩ := take_eq_moved hs hv h
  refine ⟨after, t, happly, ?_, ?_, ?_⟩
  · rw [htake]
  · rw [htake]
  · rw [htake]
    split
    · rfl
    · exact (List.append_nil _).symm

/-- The instance that a verdict is applied to stands under the identity of the verdict. -/
theorem id_subject (hk : s.instances.Keyed) (r : Rule) (extra : Labels) (history : Nat)
    (v : Verdict) :
    (s.subject r extra history v).id = r.idOf extra v ∧
      (s.subject r extra history v).labels.id = r.idOf extra v := by
  unfold subject
  cases hknown : s.instances.find? (r.idOf extra v) with
  | some i => exact hk _ i hknown
  | none => exact ⟨rfl, rfl⟩

/-- So does the one that it leaves. -/
theorem id_of_moved (hk : s.instances.Keyed) {after : Instance} {t : Transition}
    (h : (s.subject r extra history v).apply r v p = (after, .moved t)) :
    after.id = r.idOf extra v ∧ after.labels.id = r.idOf extra v := by
  obtain ⟨⟨hid, hlabels⟩, -⟩ := Instance.apply_eq_moved_fields h
  rw [hid, hlabels]
  exact id_subject hk r extra history v

theorem keyed_insert {rs : RuleInstances} (hk : rs.Keyed) {id : String} {i : Instance}
    (hi : i.id = id ∧ i.labels.id = id) : RuleInstances.Keyed (rs.insert id i) := by
  intro id' i' hi'
  rw [Table.find?_insert] at hi'
  split at hi'
  · rename_i hid
    obtain rfl := Std.LawfulEqOrd.eq_of_compare hid
    obtain rfl := Option.some.inj hi'
    exact hi
  · exact hk id' i' hi'

/-- A pending verdict names its instance, and sends it again if it is resolved. -/
theorem count_resolved_known (hk : s.instances.Keyed) (hv : v.status = .pending) :
    (s.instances.find? (r.idOf extra v)).toList.countP (·.isResolved id) =
      (s.isEcho r extra id v).toNat := by
  unfold isEcho
  rw [beq_iff_eq.2 hv, Bool.true_and]
  by_cases hid : r.idOf extra v = id
  · rw [beq_iff_eq.2 hid, Bool.true_and, hid]
    cases hknown : s.instances.find? id with
    | none => rfl
    | some i =>
        have hi := (hk id i hknown).1
        cases hresolved : i.resolved <;> simp [Instance.isResolved, hi, hresolved]
  · rw [beq_eq_false_iff_ne.2 hid, Bool.false_and]
    cases hknown : s.instances.find? (r.idOf extra v) with
    | none => rfl
    | some i =>
        have hi := (hk _ i hknown).1
        simp [Instance.isResolved, hi, hid]

/-- An instance comes out resolved of the change that took it from alerting to normal. -/
theorem count_resolved_moved {i after : Instance} {t : Transition}
    (h : i.apply r v p = (after, .moved t)) (hid : after.labels.id = after.id) (id : String) :
    [after].countP (·.isResolved id) =
      (if t.changed then [(⟨after.labels, v.time, t⟩ : Change)] else []).countP
        (·.isResolution id) := by
  obtain ⟨-, hresolved, rfl⟩ := Instance.apply_eq_moved_fields h
  have hsame : after.isResolved id =
      Change.isResolution id ⟨after.labels, v.time, ⟨i.standing, after.standing⟩⟩ := by
    unfold Instance.isResolved Change.isResolution
    rw [hid, hresolved, Bool.and_assoc]
    rfl
  by_cases hres : after.isResolved id = true
  · have hchanged : (⟨i.standing, after.standing⟩ : Transition).changed = true := by
      rw [hsame] at hres
      unfold Change.isResolution at hres
      simp only [Bool.and_eq_true, beq_iff_eq] at hres
      refine Transition.changed_of_status_ne ?_
      rw [hres.1.2, hres.2]
      decide
    rw [if_pos hchanged, List.countP_singleton, List.countP_singleton, hsame]
  · rw [List.countP_singleton, if_neg hres]
    split
    · rw [List.countP_singleton, if_neg (hsame ▸ hres)]
    · rfl

/-- **One verdict.** It makes an instance resolved with a change that says so, or it is an
echo. -/
theorem count_resolved_take (hk : s.instances.Keyed) (hs : s.failed = false)
    (h : (take r extra p history s v).failed = false) (id : String) :
    (take r extra p history s v).instances.Keyed ∧
      (take r extra p history s v).processed.countP (·.isResolved id) +
          s.changes.countP (·.isResolution id) =
        s.processed.countP (·.isResolved id) +
          (take r extra p history s v).changes.countP (·.isResolution id) +
          (s.isEcho r extra id v).toNat := by
  by_cases hv : v.status = .pending
  · rw [take_of_pending hs hv]
    refine ⟨hk, ?_⟩
    dsimp only
    rw [List.countP_append, count_resolved_known hk hv]
    omega
  · obtain ⟨after, t, happly, hinstances, hprocessed, hchanges⟩ := take_of_moved hs hv h
    obtain ⟨hid, hlabels⟩ := id_of_moved hk happly
    have hmoved := count_resolved_moved happly (hlabels.trans hid.symm) id
    have hecho : s.isEcho r extra id v = false := by
      unfold isEcho
      rw [beq_eq_false_iff_ne.2 hv]
      rfl
    rw [hinstances, hprocessed, hchanges, hecho]
    refine ⟨keyed_insert hk ⟨hid, hlabels⟩, ?_⟩
    rw [List.countP_append, List.countP_append, hmoved, Bool.toNat_false]
    omega

/-- **The verdicts of an evaluation.** -/
theorem count_resolved_foldl {vs : List Verdict} (hk : s.instances.Keyed)
    (h : (vs.foldl (take r extra p history) s).failed = false) (id : String) :
    (vs.foldl (take r extra p history) s).instances.Keyed ∧
      (vs.foldl (take r extra p history) s).processed.countP (·.isResolved id) +
          s.changes.countP (·.isResolution id) =
        s.processed.countP (·.isResolved id) +
          (vs.foldl (take r extra p history) s).changes.countP (·.isResolution id) +
          echoes r extra p history id s vs := by
  induction vs generalizing s with
  | nil => exact ⟨hk, rfl⟩
  | cons v vs ih =>
      rw [List.foldl_cons] at h ⊢
      have htaken := failed_of_foldl_take vs h
      have hs : s.failed = false := failed_of_foldl_take [v] htaken
      obtain ⟨hk', hone⟩ := count_resolved_take hk hs htaken id
      obtain ⟨hkeyed, hrest⟩ := ih hk' h
      refine ⟨hkeyed, ?_⟩
      rw [echoes]
      omega

/-- There is no echo without a pending verdict. -/
theorem echoes_eq_zero {vs : List Verdict}
    (h : ∀ v ∈ vs, r.idOf extra v = id → v.status ≠ .pending) :
    echoes r extra p history id s vs = 0 := by
  induction vs generalizing s with
  | nil => rfl
  | cons v vs ih =>
      have hno : s.isEcho r extra id v = false := by
        unfold isEcho
        by_cases hid : r.idOf extra v = id
        · rw [beq_eq_false_iff_ne.2 (h v List.mem_cons_self hid)]
          rfl
        · rw [beq_eq_false_iff_ne.2 hid, Bool.and_false, Bool.false_and]
      rw [echoes, hno, ih fun u hu => h u (List.mem_cons_of_mem v hu)]
      rfl

end Sweep

namespace Handled

/-- How often the instance under `id` was sent as resolved. -/
def sentResolved (id : String) (xs : List Handled) : Nat :=
  (xs.flatMap (·.sent)).countP (·.isResolved id)

/-- How often it went from alerting to normal. -/
def resolutions (id : String) (xs : List Handled) : Nat :=
  (xs.flatMap (·.round.changes)).countP (·.isResolution id)

theorem sentResolved_cons (id : String) (x : Handled) (xs : List Handled) :
    sentResolved id (x :: xs) = x.sent.countP (·.isResolved id) + sentResolved id xs := by
  unfold sentResolved
  rw [List.flatMap_cons, List.countP_append]

theorem resolutions_cons (id : String) (x : Handled) (xs : List Handled) :
    resolutions id (x :: xs) = x.round.changes.countP (·.isResolution id) + resolutions id xs := by
  unfold resolutions
  rw [List.flatMap_cons, List.countP_append]

end Handled

namespace Cache

variable {settings : StateSettings} {c c' : Cache} {f : Finding} {x : Handled} {id : String}

/-- How many verdicts of an evaluation are pending ones that find the instance under `id`
resolved. -/
def echoes (settings : StateSettings) (id : String) (c : Cache) (f : Finding) : Nat :=
  match settings.policy? with
  | some p =>
    Sweep.echoes f.rule f.extra p (settings.historyFor f.rule) id
      { instances := c.ofRule f.rule.key } f.verdicts
  | none => 0

/-- How many verdicts of a run are. -/
def echoesAll (settings : StateSettings) (id : String) (c : Cache) : List Finding → Nat
  | [] => 0
  | f :: fs =>
    c.echoes settings id f + match c.handle? settings f with
      | some (_, c) => echoesAll settings id c fs
      | none => 0

/-- What a round with an answer keeps of its sweep. -/
theorem sweep_of_round {now : Moment} {r : Rule} {vs : List Verdict} {extra : Labels} {rd : Round}
    (h : c.round settings now r vs extra = (some rd, c')) :
    ∃ p, settings.policy? = some p ∧
      let s := Sweep.run r extra p (settings.historyFor r) (c.ofRule r.key) vs
      s.failed = false ∧ rd.processed = s.processed ∧ rd.changes = s.changes ∧
        ∀ id i, c'.get? r.key id = some i → s.instances.find? id = some i := by
  obtain ⟨p, kept, hp, hs, hprocessed, hchanges, hsplit, rfl⟩ := split_of_round h
  refine ⟨p, hp, hs, hprocessed, hchanges, fun id i hi => ?_⟩
  rw [get?, ofRule_setRule] at hi
  have hkept := find?_of_splitStale? hsplit id
  exact (Option.filter_eq_some_iff.1 (hkept.symm.trans hi)).1

/-- A resolved instance is sent whatever its delay. -/
theorem count_resolved_sent {delay : Span} {is sent : List Instance}
    (h : Alert.due? delay is = some sent) :
    sent.countP (·.isResolved id) = is.countP (·.isResolved id) := by
  rw [Alert.eq_filter_of_due? h, List.countP_filter]
  refine List.countP_congr fun i _ => ?_
  unfold Instance.isResolved Instance.needsSending?
  cases hresolved : i.resolved <;> simp

/-- **One evaluation.** -/
theorem count_resolved_handle (hk : (c.ofRule f.rule.key).Keyed)
    (h : c.handle? settings f = some (x, c')) (id : String) :
    (c'.ofRule f.rule.key).Keyed ∧
      x.sent.countP (·.isResolved id) =
        x.round.changes.countP (·.isResolution id) + c.echoes settings id f := by
  obtain ⟨swept, hround, hdue, rfl⟩ := handle?_eq_some_iff.1 h
  obtain ⟨p, hp, hs, hprocessed, hchanges, hentries⟩ := sweep_of_round hround
  have hstart : RuleInstances.Keyed (Sweep.instances { instances := c.ofRule f.rule.key }) := hk
  obtain ⟨hkeyed, hcount⟩ := Sweep.count_resolved_foldl hstart hs id
  constructor
  · intro id' i' hi'
    have hsent := swept.get?_markSent x.sent f.rule.key id'
    obtain ⟨i, hi, rfl⟩ := Option.map_eq_some_iff.1 (hsent.symm.trans hi')
    exact hkeyed id' i (hentries id' i hi)
  · rw [count_resolved_sent hdue, hprocessed, hchanges, echoes, hp]
    simpa [Sweep.run] using hcount

theorem echoesAll_eq_zero {fs : List Finding}
    (h : ∀ f ∈ fs, ∀ v ∈ f.verdicts, f.rule.idOf f.extra v = id → v.status ≠ .pending) :
    c.echoesAll settings id fs = 0 := by
  induction fs generalizing c with
  | nil => rfl
  | cons f fs ih =>
      have hnone : c.echoes settings id f = 0 := by
        unfold echoes
        cases settings.policy? with
        | none => rfl
        | some p => exact Sweep.echoes_eq_zero (h f List.mem_cons_self)
      have hrest : ∀ c : Cache, c.echoesAll settings id fs = 0 := fun c =>
        ih fun g hg => h g (List.mem_cons_of_mem f hg)
      unfold echoesAll
      rw [hnone]
      split
      · rw [hrest]
      · rfl

/-- **Resolutions and the notifier.** Over a run of evaluations the instance under `id` is
sent as resolved once for each time that it went from alerting to normal, and once more for
each pending verdict that found it resolved. -/
theorem resolutions_of_handleAll {k : RuleKey} {fs : List Finding} {xs : List Handled}
    (hk : (c.ofRule k).Keyed) (hfs : ∀ f ∈ fs, f.rule.key = k)
    (h : c.handleAll? settings fs = some (xs, c')) (id : String) :
    Handled.sentResolved id xs = Handled.resolutions id xs + c.echoesAll settings id fs ∧
      ((∀ f ∈ fs, ∀ v ∈ f.verdicts, f.rule.idOf f.extra v = id → v.status ≠ .pending) →
        Handled.sentResolved id xs = Handled.resolutions id xs) := by
  have hcount : Handled.sentResolved id xs =
      Handled.resolutions id xs + c.echoesAll settings id fs := by
    induction fs generalizing c xs with
    | nil =>
        cases h
        rfl
    | cons f fs ih =>
        obtain ⟨x, swept, xs, hx, hxs, rfl⟩ := handleAll?_cons_eq_some_iff.1 h
        obtain rfl := hfs f List.mem_cons_self
        obtain ⟨hkeyed, hone⟩ := count_resolved_handle hk hx id
        have hrest := ih hkeyed (fun g hg => hfs g (List.mem_cons_of_mem f hg)) hxs
        rw [Handled.sentResolved_cons, Handled.resolutions_cons, hone, hrest, echoesAll, hx]
        dsimp only
        omega
  refine ⟨hcount, fun hpending => ?_⟩
  rw [hcount, echoesAll_eq_zero hpending, Nat.add_zero]

/-- One verdict every ten seconds. -/
def verdictEach (statuses : List Status) : List Finding :=
  statuses.zipIdx.map fun (status, n) =>
    { rule := {}
      verdicts := [{ labels := ∅, status, time := ⟨n * 10 * nanosPerSecond⟩ }]
      extra := ∅
      now := ⟨n * 10 * nanosPerSecond⟩ }

/-- A breach after some seconds. -/
def breachAt (seconds : Int) : Finding where
  rule := {}
  verdicts := [{ labels := ∅, status := .alerting, time := ⟨seconds * nanosPerSecond⟩ }]
  extra := ∅
  now := ⟨seconds * nanosPerSecond⟩

/-- The identity of the one instance. -/
def soleId : String := (({} : Rule).expand ∅ ∅).id

theorem resolutions_of_handleAll_quiet :
    RuleInstances.Keyed (({} : Cache).ofRule ({} : Rule).key) ∧
      (∀ f ∈ verdictEach [.alerting, .normal, .normal], f.rule.key = ({} : Rule).key) ∧
      ∃ xs c', ({} : Cache).handleAll? {} (verdictEach [.alerting, .normal, .normal]) =
          some (xs, c') ∧
        Handled.sentResolved soleId xs = 1 ∧ Handled.resolutions soleId xs = 1 := by
  have hk : RuleInstances.Keyed (({} : Cache).ofRule ({} : Rule).key) := by
    intro id i hi
    cases (show none = some i from hi)
  have hfs : ∀ f ∈ verdictEach [.alerting, .normal, .normal], f.rule.key = ({} : Rule).key := by
    intro f hf
    obtain ⟨_, -, rfl⟩ := List.mem_map.1 hf
    rfl
  have hpending : ∀ f ∈ verdictEach [.alerting, .normal, .normal], ∀ v ∈ f.verdicts,
      f.rule.idOf f.extra v = soleId → v.status ≠ .pending := by
    intro f hf v hv _
    simp only [verdictEach, List.zipIdx_cons, List.zipIdx_nil, List.map_cons, List.map_nil,
      List.mem_cons, List.not_mem_nil, or_false] at hf
    rcases hf with rfl | rfl | rfl <;> (rw [List.mem_singleton.1 hv]; decide)
  have hrun : (({} : Cache).handleAll? {} (verdictEach [.alerting, .normal, .normal])).map
      (fun y => Handled.sentResolved soleId y.1) = some 1 := by decide +kernel
  obtain ⟨⟨xs, c'⟩, hxs, hsent⟩ := Option.map_eq_some_iff.1 hrun
  have heq := (resolutions_of_handleAll hk hfs hxs soleId).2 hpending
  exact ⟨hk, hfs, xs, c', hxs, hsent, heq.symm.trans hsent⟩

/-- A pending verdict after a resolution sends that again. -/
theorem resolution_sent_twice :
    ∃ xs c', ({} : Cache).handleAll? {} (verdictEach [.alerting, .normal, .pending]) =
        some (xs, c') ∧
      Handled.sentResolved soleId xs = 2 ∧ Handled.resolutions soleId xs = 1 := by
  have hrun : (({} : Cache).handleAll? {} (verdictEach [.alerting, .normal, .pending])).map
      (fun y => (Handled.sentResolved soleId y.1, Handled.resolutions soleId y.1)) =
        some (2, 1) := by decide +kernel
  obtain ⟨⟨xs, c'⟩, hxs, hcounts⟩ := Option.map_eq_some_iff.1 hrun
  obtain ⟨hsent, hresolved⟩ := Prod.mk.inj hcounts
  exact ⟨xs, c', hxs, hsent, hresolved⟩

end Cache

end Vigil
