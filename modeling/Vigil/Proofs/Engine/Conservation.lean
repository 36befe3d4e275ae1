import Vigil.Proofs.Engine.Balance

/-!
# No evaluation is lost

The counters of the metrics and the reports in the journal move when a case goes on, and for
that case alone (`Case.Becomes.tallies`). A case that is settled goes on no more
(`Audit.lasts_next`). So after any run every evaluation that a tick reported is in the book in
one condition, and the counters are those of the book (`Audit.nothing_lost`).
-/

namespace Vigil

namespace SchedulerMetrics

theorem getD_find?_count {κ : Type} [Ord κ] [Std.TransOrd κ] [Std.LawfulEqOrd κ] [BEq κ]
    [LawfulBEq κ] (t : Table κ Nat) (q k : κ) :
    ((count t q 1).find? k).getD 0 = (t.find? k).getD 0 + (q == k).toNat := by
  rw [count, Table.find?_insert]
  by_cases h : q = k
  · subst h
    rw [if_pos Std.ReflOrd.compare_self, beq_self_eq_true]
    rfl
  · rw [if_neg fun heq => h (Std.LawfulEqOrd.eq_of_compare heq).symm, beq_false_of_ne h]
    rfl

variable (m : SchedulerMetrics)

theorem readMissed_recordMissed (q k : RuleKey) :
    ((m.recordMissed q).readMissed k).1 = (m.readMissed k).1 + (q == k).toNat :=
  getD_find?_count m.missed q k

theorem readEvaluations_recordEvaluation (q org : Int) (took : Span) (failed : Bool) :
    ((m.recordEvaluation q took failed).readEvaluations org).1 =
      (m.readEvaluations org).1 + (q == org).toNat :=
  getD_find?_count m.evaluations q org

end SchedulerMetrics

namespace Case

variable {s t : System} {cs cs' : List Case} {c c' : Case}

/-! ## Counters -/

theorem toNat_eq_ite (b : Bool) : b.toNat = if b = true then 1 else 0 := by
  cases b <;> rfl

/-- The case is an evaluation that rule `k` missed. -/
def missedBy (k : RuleKey) (c : Case) : Bool := c.progress == .missed && c.key == k

/-- The case was counted as an evaluation of the org. -/
def countedFor (org : Int) (c : Case) : Bool := c.counted && c.evaluation.rule.org == org

/-- The case was reported as applied. -/
def reportedAs (report : RuleKey × Moment) (c : Case) : Bool :=
  c.progress == .completed && (c.key, c.evaluation.scheduledAt) == report

/-- As `c` becomes `c'` the counters move for it, and for it alone. -/
structure Tallies (s t : System) (c c' : Case) : Prop where
  missed : ∀ k, (t.shared.metrics.readMissed k).1 + (c.missedBy k).toNat =
    (s.shared.metrics.readMissed k).1 + (c'.missedBy k).toNat
  evaluations : ∀ org, (t.shared.metrics.readEvaluations org).1 + (c.countedFor org).toNat =
    (s.shared.metrics.readEvaluations org).1 + (c'.countedFor org).toNat
  reports : ∀ report, t.shared.reports.count report + (c.reportedAs report).toNat =
    s.shared.reports.count report + (c'.reportedAs report).toNat

theorem Tallies.of_quiet {st : Progress} (hd : t.shared.Quiet s.shared)
    (hwas : (c.progress == .missed) = false ∧ (c.progress == .completed) = false)
    (hst : (st == .missed) = false ∧ (st == .completed) = false) :
    Tallies s t c { c with progress := st } := by
  refine ⟨fun k => ?_, fun org => ?_, fun report => ?_⟩
  · rw [hd.metrics, missedBy, missedBy, hwas.1, hst.1]
    rfl
  · rw [hd.metrics]
    rfl
  · rw [hd.reports, reportedAs, reportedAs, hwas.2, hst.2]
    rfl

theorem Becomes.tallies (h : c.Becomes s t c')
    (hrunning : c.progress = .running → c.counted = s.isCounted c.worker) :
    Tallies s t c c' := by
  cases h with
  | withdrawn hwas _ _ _ _ hshared =>
      exact .of_quiet (hshared ▸ (Shared.Untouched.refl _).quiet) (by rw [hwas]; decide) (by decide)
  | accepted hwas _ _ _ _ _ hshared =>
      exact .of_quiet (hshared ▸ (Shared.Untouched.refl _).quiet) (by rw [hwas]; decide) (by decide)
  | taken hwas _ _ _ _ _ _ _ hshared =>
      exact .of_quiet hshared (by rw [hwas]; decide) (by decide)
  | cancelled hwas _ _ _ _ _ _ hshared =>
      exact .of_quiet hshared (by rw [hwas]; decide) (by decide)
  | missed hwas _ _ _ _ hshared =>
      refine ⟨fun k => ?_, fun org => ?_, fun report => ?_⟩
      · rw [hshared, SchedulerMetrics.readMissed_recordMissed, missedBy, hwas]
        rfl
      · rw [hshared]
        rfl
      · rw [hshared, reportedAs, hwas]
        rfl
  | counted hwas _ _ hphase _ huncounted _ _ _ took failed hshared =>
      have hbefore : c.counted = false :=
        (hrunning hwas).trans ((System.isCounted_eq hphase).trans huncounted)
      refine ⟨fun k => ?_, fun org => ?_, fun report => ?_⟩
      · rw [hshared]
        rfl
      · rw [hshared, SchedulerMetrics.readEvaluations_recordEvaluation, countedFor, hbefore]
        rfl
      · rw [hshared]
        rfl
  | completed hwas _ _ _ _ _ _ hmetrics hreports =>
      refine ⟨fun k => ?_, fun org => ?_, fun report => ?_⟩
      · rw [hmetrics, missedBy, hwas]
        rfl
      · rw [hmetrics]
        rfl
      · rw [hreports, List.count_append, List.count_singleton, reportedAs, hwas]
        show _ + _ + 0 = _ + ((c.key, c.evaluation.scheduledAt) == report).toNat
        rw [toNat_eq_ite]
        rfl

/-- A counter that moves for one case at a time counts the cases. -/
theorem Booked.countP_add {p : Case → Bool} {f : System → Nat} (h : Booked s t cs cs')
    (hcs : Balanced s cs) (hnew : ∀ d, p { dispatch := d } = false)
    (hrolls : ∀ ds, s.Rolls ds t → f t = f s)
    (htallies : ∀ c c', Tallies s t c c' → f t + (p c).toNat = f s + (p c').toNat) :
    f t + cs.countP p = f s + cs'.countP p := by
  cases h with
  | @rolls ds hds =>
      have hnone : (ds.map fun d => ({ dispatch := d } : Case)).countP p = 0 := by
        rw [List.countP_eq_zero]
        intro c hc
        obtain ⟨d, -, rfl⟩ := List.mem_map.1 hc
        rw [hnew d]
        exact nofun
      rw [List.countP_append, hnone, hrolls ds hds, Nat.add_zero]
  | @becomes before after c c' hsplit _ _ hc =>
      subst hsplit
      have hfits := hcs.fits c (mem_middle before after c)
      have hone := htallies c c' (hc.tallies hfits.working)
      rw [toNat_eq_ite, toNat_eq_ite] at hone
      rw [List.countP_append, List.countP_cons, List.countP_append, List.countP_cons]
      omega

/-! ## What is settled -/

theorem Booked.next_cases (h : Booked s t cs cs') (hcs : Balanced s cs) (hc : c ∈ cs) :
    c.next s t = c ∨ c.Becomes s t (c.next s t) := by
  cases h with
  | rolls hrolls => exact Or.inl (hcs.next_eq hc (hcs.spared hrolls hc))
  | @becomes before after b b' hsplit hothers _ hb =>
      subst hsplit
      rcases List.mem_append.1 hc with hbefore | hrest
      · exact Or.inl (hcs.next_eq hc (hothers c (List.mem_append_left _ hbefore)))
      rcases List.mem_cons.1 hrest with rfl | hafter
      · exact Or.inr (hb.next_eq ▸ hb)
      · exact Or.inl (hcs.next_eq hc (hothers c (List.mem_append_right _ hafter)))

/-- Only what is not settled goes on. -/
theorem Becomes.not_final {x : Audit} (h : c.Becomes x.system t c') :
    (x.condition c).isFinal = false := by
  cases h with
  | withdrawn hwas => simp [Audit.condition, hwas, Progress.isFinal]
  | missed hwas => simp [Audit.condition, hwas, Progress.isFinal]
  | accepted hwas => simp [Audit.condition, hwas, Progress.isFinal]
  | taken hwas _ hgoes => simp [Audit.condition, hwas, hgoes, Progress.isFinal]
  | counted hwas => simp [Audit.condition, hwas, Progress.isFinal]
  | cancelled hwas => simp [Audit.condition, hwas, Progress.isFinal]
  | completed hwas => simp [Audit.condition, hwas, Progress.isFinal]

/-- A routine that was told to stop takes nothing up. -/
theorem Becomes.not_running (h : c.Becomes s t c') (hstop : s.isStopped c.worker = true)
    (hnot : c.progress ≠ .running) : c'.progress ≠ .running := by
  cases h with
  | taken _ _ hgoes => cases hstop.symm.trans hgoes
  | counted hwas => exact absurd hwas hnot
  | _ => exact nofun

/-- Between two audits `c` has become `c'`. -/
structure Lasts (x y : Audit) (c c' : Case) : Prop where
  dispatch : c'.dispatch = c.dispatch
  settled : (x.condition c).isFinal = true → c' = c ∧ y.condition c = x.condition c
  counted : c.counted = true → c'.counted = true
  stopped : x.system.isStopped c.worker = true → y.system.isStopped c.worker = true
  not_running : x.system.isStopped c.worker = true → c.progress ≠ .running → c'.progress ≠ .running

theorem Lasts.refl (x : Audit) (c : Case) : c.Lasts x x c :=
  ⟨rfl, fun _ => ⟨rfl, rfl⟩, id, id, fun _ => id⟩

theorem Lasts.trans {x y z : Audit} {c'' : Case} (h : c.Lasts x y c') (h' : c'.Lasts y z c'') :
    c.Lasts x z c'' := by
  have hworker : c'.worker = c.worker := congrArg Dispatch.worker h.dispatch
  refine ⟨h'.dispatch.trans h.dispatch, fun hfinal => ?_, h'.counted ∘ h.counted, fun hstop => ?_,
    fun hstop hnot => ?_⟩
  · obtain ⟨rfl, hsame⟩ := h.settled hfinal
    obtain ⟨hstays, hsame'⟩ := h'.settled (hsame ▸ hfinal)
    exact ⟨hstays, hsame'.trans hsame⟩
  · exact hworker ▸ h'.stopped (hworker ▸ h.stopped hstop)
  · exact h'.not_running (hworker ▸ h.stopped hstop) (h.not_running hstop hnot)

end Case

namespace Audit

variable {x y : Audit} {c : Case} {a : System.Action} {as : List System.Action} {s t : System}
  {d : Shared} {k : RuleKey}

theorem condition_eq_of_ne (x : Audit) {c : Case} (h : c.progress ≠ .pending) :
    x.condition c = c.progress := if_neg fun hc => h hc.1

/-- A stop settles what is in the mailbox, and no more. -/
theorem condition_eq_of_final (hstop : x.system.isStopped c.worker = true →
      y.system.isStopped c.worker = true) (h : (x.condition c).isFinal = true) :
    y.condition c = x.condition c := by
  by_cases hwas : c.progress = .pending
  · unfold condition at h ⊢
    split at h
    · rename_i hc
      rw [if_pos hc, if_pos ⟨hwas, hstop hc.2⟩]
    · rw [hwas] at h
      cases h
  · rw [y.condition_eq_of_ne hwas, x.condition_eq_of_ne hwas]

theorem lasts_next (hx : Case.Balanced x.system x.book) (hs : x.system.Tracks) (ha : a.IsListed)
    (h : x.system.step? a = some t) (hc : c ∈ x.book) :
    c.Lasts x (x.after a t) (c.next x.system t) := by
  have hstop : x.system.isStopped c.worker = true → t.isStopped c.worker = true :=
    System.isStopped_mono hs ha h c.worker
  rcases (Case.booked_step hx hs ha h).next_cases hx hc with hsame | hbecomes
  · rw [hsame]
    exact ⟨rfl, fun hfinal => ⟨rfl, condition_eq_of_final hstop hfinal⟩, id, hstop, fun _ => id⟩
  · refine ⟨rfl, fun hfinal => ?_, fun hcounted => ?_, hstop, hbecomes.not_running⟩
    · rw [hbecomes.not_final] at hfinal
      cases hfinal
    · show (c.counted || _) = true
      rw [hcounted, Bool.true_or]

/-! ## Runs -/

theorem run?_snoc (x : Audit) (as : List System.Action) (a : System.Action) :
    x.run? (as ++ [a]) = (x.run? as).bind (·.step? a) :=
  Desk.foldlM_concat step? x as a

/-- The engine does what it does without an observer. -/
theorem exists_run (h : x.system.run? as = some s) : ∃ y, x.run? as = some y ∧ y.system = s := by
  induction as using List.reverseRecOn generalizing s with
  | nil =>
      cases h
      exact ⟨x, rfl, rfl⟩
  | append_singleton as a ih =>
      rw [System.run?_snoc] at h
      obtain ⟨u, hu, hstep⟩ := Option.bind_eq_some_iff.1 h
      obtain ⟨y, hy, rfl⟩ := ih hu
      refine ⟨y.after a s, ?_, rfl⟩
      rw [run?_snoc, hy, Option.bind_some, step?, hstep]
      rfl

theorem step?_eq_some_iff :
    x.step? a = some y ↔ ∃ t, x.system.step? a = some t ∧ x.after a t = y :=
  Option.map_eq_some_iff

/-- The book of an engine that started on `d`. -/
structure Accounted (d : Shared) (x : Audit) : Prop where
  /-- It agrees with the engine. -/
  balanced : Case.Balanced x.system x.book
  /-- Each evaluation that a tick reported has its case, in order. -/
  scheduled : x.book.map (fun c => (c.key, c.evaluation.rule.version)) =
    x.scheduled.map fun e => (e.key, e.version)
  missed : ∀ k, (x.system.shared.metrics.readMissed k).1 =
    (d.metrics.readMissed k).1 + x.book.countP (Case.missedBy k)
  evaluations : ∀ org, (x.system.shared.metrics.readEvaluations org).1 =
    (d.metrics.readEvaluations org).1 + x.book.countP (Case.countedFor org)
  /-- What the routines report as applied. -/
  reports : ∀ report, x.system.shared.reports.count report =
    d.reports.count report + x.book.countP (Case.reportedAs report)

theorem accounted_on (d : Shared) : (on d).Accounted d where
  balanced := ⟨rfl, List.forall_mem_nil _, rfl, fun _ => rfl, fun _ _ h => absurd h nofun⟩
  scheduled := rfl
  missed _ := rfl
  evaluations _ := rfl
  reports _ := rfl

/-- A tick reports what it sends. -/
theorem scheduled_after (hs : x.system.Tracks) (ha : a.IsListed)
    (h : x.system.step? a = some t)
    (hx : x.book.map (fun c => (c.key, c.evaluation.rule.version)) =
      x.scheduled.map fun e => (e.key, e.version)) :
    (x.after a t).book.map (fun c => (c.key, c.evaluation.rule.version)) =
      (x.after a t).scheduled.map fun e => (e.key, e.version) := by
  have hnew : (t.dispatches.drop x.system.dispatches.length).map
      (fun d => (d.evaluation.rule.key, d.evaluation.rule.version)) =
        (x.system.scheduled a).map fun e => (e.key, e.version) := by
    have hother : (∀ time listing, a ≠ .tick time listing) →
        t.dispatches.drop x.system.dispatches.length = [] := fun htick =>
      List.drop_eq_nil_of_le (System.length_dispatches_le hs h htick)
    cases a with
    | tick time listing =>
        cases h
        obtain ⟨ds, hrolls, hreport⟩ := System.rolls_tick hs time ha
        rw [hrolls.dispatches, List.drop_left]
        exact hreport
    | _ =>
        rw [hother (by rintro _ _ ⟨⟩)]
        rfl
  unfold after
  rw [List.map_append, List.map_append, ← hnew, ← hx, List.map_map, List.map_map]
  rfl

theorem Accounted.after (hx : x.Accounted d) (hs : x.system.Tracks) (ha : a.IsListed)
    (h : x.system.step? a = some t) : (x.after a t).Accounted d := by
  have hbooked : Case.Booked x.system t x.book (x.after a t).book :=
    Case.booked_step hx.balanced hs ha h
  refine ⟨hbooked.balanced hx.balanced (System.isStopped_mono hs ha h),
    scheduled_after hs ha h hx.scheduled, fun k => ?_, fun org => ?_, fun report => ?_⟩
  · have hcount := hbooked.countP_add (f := fun s => (s.shared.metrics.readMissed k).1)
      hx.balanced (fun _ => rfl) (fun ds hds => congrArg (fun m => (m.find? k).getD 0) hds.missed)
      fun c c' hc => hc.missed k
    rw [hx.missed k] at hcount
    show (t.shared.metrics.readMissed k).1 = _
    omega
  · have hcount := hbooked.countP_add (f := fun s => (s.shared.metrics.readEvaluations org).1)
      hx.balanced (fun _ => rfl)
      (fun ds hds => congrArg (fun m => (m.find? org).getD 0) hds.evaluations)
      fun c c' hc => hc.evaluations org
    rw [hx.evaluations org] at hcount
    show (t.shared.metrics.readEvaluations org).1 = _
    omega
  · have hcount := hbooked.countP_add (f := fun s => s.shared.reports.count report)
      hx.balanced (fun _ => rfl) (fun ds hds => congrArg (List.count report) hds.reports)
      fun c c' hc => hc.reports report
    rw [hx.reports report] at hcount
    show t.shared.reports.count report = _
    omega

/-- What is in the book of `x` stands at the same place in that of `y`. -/
structure Lasts (x y : Audit) : Prop where
  scheduled : x.scheduled <+: y.scheduled
  book : ∀ (i : Nat) c, x.book[i]? = some c → ∃ c', y.book[i]? = some c' ∧ c.Lasts x y c'

theorem Lasts.refl (x : Audit) : x.Lasts x :=
  ⟨List.prefix_refl _, fun _ c hc => ⟨c, hc, .refl x c⟩⟩

theorem Lasts.trans {z : Audit} (h : x.Lasts y) (h' : y.Lasts z) : x.Lasts z := by
  refine ⟨h.scheduled.trans h'.scheduled, fun i c hc => ?_⟩
  obtain ⟨c', hc', hlasts⟩ := h.book i c hc
  obtain ⟨c'', hc'', hlasts'⟩ := h'.book i c' hc'
  exact ⟨c'', hc'', hlasts.trans hlasts'⟩

theorem lasts_after (hx : Case.Balanced x.system x.book) (hs : x.system.Tracks)
    (ha : a.IsListed) (h : x.system.step? a = some t) : x.Lasts (x.after a t) := by
  refine ⟨List.prefix_append _ _, fun i c hc => ⟨c.next x.system t, ?_, ?_⟩⟩
  · have hi : i < x.book.length := (List.getElem?_eq_some_iff.1 hc).1
    unfold after
    rw [List.getElem?_append_left (by rwa [List.length_map]), List.getElem?_map, hc]
    rfl
  · exact lasts_next hx hs ha h (List.mem_of_getElem? hc)

/-- **The book** stays in order along every run. -/
theorem accounted_run (hx : x.Accounted d) (hs : x.system.Reached) (ha : ∀ a ∈ as, a.IsListed)
    (h : x.run? as = some y) : y.Accounted d ∧ y.system.Reached ∧ x.Lasts y := by
  induction as using List.reverseRecOn generalizing y with
  | nil =>
      cases h
      exact ⟨hx, hs, .refl x⟩
  | append_singleton as a ih =>
      rw [List.forall_mem_append, List.forall_mem_singleton] at ha
      rw [run?_snoc] at h
      obtain ⟨z, hz, hstep⟩ := Option.bind_eq_some_iff.1 h
      obtain ⟨t, ht, rfl⟩ := step?_eq_some_iff.1 hstep
      obtain ⟨hbook, hreached, hlasts⟩ := ih ha.1 hz
      have htracks := hreached.orderly.tracks
      exact ⟨hbook.after htracks ha.2 ht, hreached.step ha.2 ht,
        hlasts.trans (lasts_after hbook.balanced htracks ha.2 ht)⟩

/-! ## The sum -/

theorem condition_eq_missed_iff : x.condition c = .missed ↔ c.progress = .missed := by
  unfold condition
  split
  · rename_i hc
    rw [hc.1]
    exact ⟨nofun, nofun⟩
  · exact Iff.rfl

theorem count_missed (x : Audit) (k : RuleKey) :
    x.count k .missed = x.book.countP (Case.missedBy k) := by
  refine List.countP_congr fun c _ => ?_
  rw [Case.missedBy, Bool.and_eq_true, Bool.and_eq_true, beq_iff_eq, beq_iff_eq, beq_iff_eq,
    condition_eq_missed_iff, and_comm]

/-- Every case of a rule is in one condition. -/
theorem countP_key (x : Audit) (k : RuleKey) : x.book.countP (·.key == k) =
    x.count k .missed + x.count k .completed + (x.count k .withdrawn + x.count k .cancelled) +
      x.count k .waiting + x.count k .pending + x.count k .running := by
  unfold count
  generalize x.book = cs
  induction cs with
  | nil => rfl
  | cons c cs ih =>
      simp only [List.countP_cons]
      rw [ih]
      cases hk : c.key == k with
      | false => simp
      | true =>
          cases hc : x.condition c with
          | _ => simp; omega

theorem Accounted.countP_scheduled (hx : x.Accounted d) (k : RuleKey) :
    x.scheduled.countP (·.key == k) = x.book.countP (·.key == k) := by
  have hkeys := congrArg (List.countP (·.1 == k)) hx.scheduled
  rw [List.countP_map, List.countP_map] at hkeys
  exact hkeys.symm

/-- A routine has at work what was sent to it. -/
theorem Accounted.exists_running (hx : x.Accounted d) {n : Nat} {p : Phase} {e : Evaluation}
    (hp : x.system.phase? n = some p) (he : p.evaluation? = some e) :
    ∃ c ∈ x.book, c.worker = n ∧ c.evaluation = e ∧ x.condition c = .running := by
  obtain ⟨before, c, after, hsplit, hwas, hn, hc, -⟩ :=
    Case.exists_split_of_held (hx.balanced.held_running hp he)
  refine ⟨c, ?_, hn, hc, ?_⟩
  · rw [hsplit]
    exact Case.mem_middle before after c
  · rw [x.condition_eq_of_ne (by simp [hwas]), hwas]

/-- A routine that is not the live one of its rule was told to stop. -/
theorem Accounted.isStopped (hx : x.Accounted d) (hs : x.system.Tracks) (hc : c ∈ x.book)
    (hdead : x.system.registry.find? c.key ≠ some c.worker) :
    x.system.isStopped c.worker = true := by
  obtain ⟨w, hw, hkey⟩ := Option.map_eq_some_iff.1 (hx.balanced.fits c hc).key
  rw [System.isStopped_eq hw, Handle.isStopped_iff]
  exact Or.inl fun hstop => hdead (hkey ▸ (hs.sound.unstopped hw).1 hstop)

/-- **No evaluation is lost.** Each evaluation that a tick reports is a case in the book and
in one condition at a time. The cases that wait are the dispatches, and those that are pending
or running are in a mailbox or at work at the routine that they were sent to. A missed case was
counted as missed once, a completed one was counted as an evaluation of its org once and
reported as applied once, and nothing else moves these counters. A case that is settled stays
as it is. One whose routine was told to stop before it ran does not run any more, also not in
the routine that takes the place of the deleted one. -/
theorem nothing_lost (ha : ∀ a ∈ as, a.IsListed) (h : (System.on d).run? as = some s) :
    ∃ x, (on d).run? as = some x ∧ x.system = s ∧ x.Accounted d ∧
      (∀ k, x.scheduled.countP (·.key == k) =
        x.count k .missed + x.count k .completed + (x.count k .withdrawn + x.count k .cancelled) +
          x.count k .waiting + x.count k .pending + x.count k .running) ∧
      (∀ k, (s.shared.metrics.readMissed k).1 =
        (d.metrics.readMissed k).1 + x.count k .missed) ∧
      (∀ n p e, s.phase? n = some p → p.evaluation? = some e →
        ∃ c ∈ x.book, c.worker = n ∧ c.evaluation = e ∧ x.condition c = .running) ∧
      (∀ c ∈ x.book, s.registry.find? c.key ≠ some c.worker → s.isStopped c.worker = true) ∧
      ∀ bs t, (∀ b ∈ bs, b.IsListed) → s.run? bs = some t →
        ∃ y, x.run? bs = some y ∧ y.system = t ∧ y.Accounted d ∧ x.Lasts y := by
  obtain ⟨x, hx, rfl⟩ := exists_run (x := on d) h
  obtain ⟨hbook, hs, -⟩ := accounted_run (accounted_on d) (System.reached_on d) ha hx
  refine ⟨x, hx, rfl, hbook, fun k => ?_, fun k => ?_, fun _ _ _ => hbook.exists_running,
    fun _ => hbook.isStopped hs.orderly.tracks, fun bs t hb ht => ?_⟩
  · rw [hbook.countP_scheduled, countP_key]
  · rw [hbook.missed, count_missed]
  · obtain ⟨y, hy, rfl⟩ := exists_run ht
    obtain ⟨hbook', -, hlasts⟩ := accounted_run hbook hs hb hy
    exact ⟨y, hy, rfl, hbook', hlasts⟩

/-- The first evaluation is applied, and the next one is missed. The rule is deleted while a
third is in the mailbox and a fourth waits, and comes back. -/
def replacing : List System.Action :=
  [.tick .epoch (some (.ofListing [{ uid := "b", intervalSeconds := 10 }] ∅)), .release 0,
   .worker 0 .wake, .elapse 10000, .tick ⟨10 * nanosPerSecond⟩ none, .release 1,
   .worker 0 .look, .worker 0 (.built (.ok ())), .worker 0 (.evaluated (.ok [])),
   .worker 0 .proceed,
   .elapse 10000, .tick ⟨20 * nanosPerSecond⟩ none, .release 2,
   .elapse 10000, .tick ⟨30 * nanosPerSecond⟩ none, .delete [⟨1, "b"⟩],
   .tick ⟨40 * nanosPerSecond⟩ (some (.ofListing [{ uid := "b", intervalSeconds := 10 }] ∅))]

/-- The new routine takes up what was sent to it, and the old one leaves. -/
def replaced : List System.Action :=
  [.release 4, .worker 1 .wake, .release 3, .worker 0 .wake]

theorem nothing_lost_replaced :
    (∀ a ∈ replacing, a.IsListed) ∧ (∀ a ∈ replaced, a.IsListed) ∧
      ∃ x y, (on { clock := .epoch }).run? replacing = some x ∧ x.run? replaced = some y ∧
        x.book.map x.condition = [.completed, .missed, .cancelled, .waiting, .waiting] ∧
        y.book.map y.condition = [.completed, .missed, .cancelled, .withdrawn, .running] ∧
        x.book.map Case.worker = [0, 0, 0, 0, 1] ∧
        (x.system.shared.metrics.readMissed ⟨1, "b"⟩).1 = 1 ∧ x.Lasts y := by
  have hlisted : ∀ a ∈ replacing, a.IsListed := by
    simp only [replacing, List.forall_mem_cons]
    exact ⟨⟨_, _, rfl⟩, trivial, trivial, trivial, trivial, trivial, trivial, trivial, trivial,
      trivial, trivial, trivial, trivial, trivial, trivial, trivial, ⟨_, _, rfl⟩,
      List.forall_mem_nil _⟩
  have hlisted' : ∀ a ∈ replaced, a.IsListed := by
    simp [replaced, System.Action.IsListed]
  have hrun : (((System.on { clock := .epoch }).run? replacing).bind (·.run? replaced)).isSome =
      true := by decide +kernel
  have hseen : (((on { clock := .epoch }).run? replacing).bind fun x =>
      (x.run? replaced).map fun y =>
        decide (x.book.map x.condition = [.completed, .missed, .cancelled, .waiting, .waiting]) &&
        decide (y.book.map y.condition =
          [.completed, .missed, .cancelled, .withdrawn, .running]) &&
        decide (x.book.map Case.worker = [0, 0, 0, 0, 1]) &&
        x.count ⟨1, "b"⟩ .missed == 1) = some true := by decide +kernel
  obtain ⟨t, ht⟩ := Option.isSome_iff_exists.1 hrun
  obtain ⟨s, hs, ht⟩ := Option.bind_eq_some_iff.1 ht
  obtain ⟨x, hx, rfl, -, -, hmissed, -, -, hlater⟩ := nothing_lost hlisted hs
  obtain ⟨y, hy, -, -, hlasts⟩ := hlater replaced t hlisted' ht
  rw [hx, Option.bind_some, hy, Option.map_some, Option.some.injEq] at hseen
  simp only [Bool.and_eq_true, beq_iff_eq, decide_eq_true_eq] at hseen
  obtain ⟨⟨⟨hbefore, hafter⟩, hworkers⟩, hcount⟩ := hseen
  refine ⟨hlisted, hlisted', x, y, hx, hy, hbefore, hafter, hworkers, ?_, hlasts⟩
  rw [hmissed, hcount]
  rfl

end Audit

end Vigil
