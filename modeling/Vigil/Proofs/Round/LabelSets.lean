import Mathlib.Data.List.Infix
import Vigil.Proofs.Cache.Rules
import Vigil.Proofs.Round.Sweep

/-!
# A round is one run for each label set

A sweep works on all instances of a rule at once and finds them by a digest of
their labels. Each label set could as well have an instance of its own that takes
the verdicts about it and nothing else (`Rule.alone`). As long as the digest does
not collide, a round does the same (`round_eq_alone`): the entries, the answers
and the failures are those of the separate runs, and so verdicts about different
label sets may change places.
-/

namespace Vigil

/-- A longer list has one more beginning: itself. -/
theorem filterMap_inits_snoc {α : Type u} {β : Type v} (f : List α → Option β) (l : List α)
    (a : α) : (l ++ [a]).inits.filterMap f = l.inits.filterMap f ++ (f (l ++ [a])).toList := by
  have htail : [a].inits.tail = [[a]] := by simp
  rw [List.inits_append, List.filterMap_append, htail, List.map_singleton, List.filterMap_cons,
    List.filterMap_nil]
  cases f (l ++ [a]) <;> rfl

namespace Rule

/-- The verdicts about the instance with labels `L`; a pending one says nothing. -/
def about (r : Rule) (extra L : Labels) (vs : List Verdict) : List Verdict :=
  vs.filter fun v => r.expand extra v.labels = L ∧ v.status ≠ .pending

/-- What the verdicts of a batch make of the instance with labels `L` if they are
applied to it alone. It is made new only if some verdict asks for it. -/
def alone (r : Rule) (extra : Labels) (p : TransitionPolicy) (history : Nat) (L : Labels)
    (known : Option Instance) (vs : List Verdict) : Option Instance :=
  match r.about extra L vs with
  | [] => known
  | us => some ((known.getD (.new r L history)).drive (us.map (·.under r p)))

/-- The instance after each verdict, in the order of the verdicts: what the batch up
to that verdict makes of it. A pending verdict about no known instance shows none. -/
def snapshots (r : Rule) (extra : Labels) (p : TransitionPolicy) (history : Nat)
    (rs : RuleInstances) (vs : List Verdict) : List Instance :=
  vs.inits.filterMap fun us => us.getLast?.bind fun v =>
    r.alone extra p history (r.expand extra v.labels) (rs.find? (r.idOf extra v)) us

variable {r : Rule} {extra : Labels} {p : TransitionPolicy} {history : Nat}

theorem alone_snoc_of_about {L : Labels} {known : Option Instance} {vs : List Verdict} {v : Verdict}
    (hL : r.expand extra v.labels = L) (hv : v.status ≠ .pending) :
    r.alone extra p history L known (vs ++ [v]) =
      some (((r.alone extra p history L known vs).getD (.new r L history)).next (v.under r p)) := by
  have hsnoc : r.about extra L (vs ++ [v]) = r.about extra L vs ++ [v] := by
    simp [about, List.filter_append, hL, hv]
  unfold alone
  rw [hsnoc]
  cases r.about extra L vs with
  | nil => rfl
  | cons u us =>
      simp only [List.cons_append, List.map_cons, List.map_append, List.map_nil]
      rw [← List.cons_append, Instance.drive_snoc]
      rfl

theorem alone_snoc_of_not_about {L : Labels} {known : Option Instance} {vs : List Verdict}
    {v : Verdict} (h : r.expand extra v.labels ≠ L ∨ v.status = .pending) :
    r.alone extra p history L known (vs ++ [v]) = r.alone extra p history L known vs := by
  have hsnoc : r.about extra L (vs ++ [v]) = r.about extra L vs := by
    rcases h with h | h
    · simp [about, List.filter_append, h]
    · simp [about, List.filter_append, h]
  unfold alone
  rw [hsnoc]

theorem snapshots_snoc (rs : RuleInstances) (vs : List Verdict) (v : Verdict) :
    r.snapshots extra p history rs (vs ++ [v]) = r.snapshots extra p history rs vs ++
      (r.alone extra p history (r.expand extra v.labels) (rs.find? (r.idOf extra v))
        (vs ++ [v])).toList := by
  unfold snapshots
  rw [filterMap_inits_snoc, List.getLast?_concat, Option.bind_some]

end Rule

/-! ## The sweep against the separate runs -/

namespace Sweep

variable {r : Rule} {extra : Labels} {p : TransitionPolicy} {history : Nat}

theorem find?_run_eq_alone {S : Labels → Prop} (hS : Labels.Separate S) {rs : RuleInstances}
    {vs : List Verdict} (hvs : ∀ v ∈ vs, S (r.expand extra v.labels))
    (h : (run r extra p history rs vs).failed = false) {L : Labels} (hL : S L) :
    (run r extra p history rs vs).instances.find? L.id =
      r.alone extra p history L (rs.find? L.id) vs := by
  induction vs using List.reverseRecOn with
  | nil => rfl
  | append_singleton vs v ih =>
      obtain ⟨hs, -, -, hcases⟩ := run_snoc_cases h
      have hold := ih (fun u hu => hvs u (List.mem_append_left _ hu)) hs
      have hv : S (r.expand extra v.labels) := hvs v (by simp)
      rcases hcases with ⟨hpending, hinstances, -⟩ | ⟨hcounts, after, hafter, hinstances, -⟩
      · rw [hinstances, hold, Rule.alone_snoc_of_not_about (Or.inr hpending)]
      · rw [hinstances, Table.find?_insert]
        by_cases hlabels : r.expand extra v.labels = L
        · have hid : r.idOf extra v = L.id := by rw [Rule.idOf, hlabels]
          rw [if_pos (by simp [hid]), Rule.alone_snoc_of_about hlabels hcounts, hafter, hid, hold,
            hlabels]
        -- other labels have another entry, as the digest does not collide
        · have hid : L.id ≠ r.idOf extra v := fun hid =>
            hlabels (hS.eq_of_id_eq hv hL hid.symm)
          rw [if_neg (by simpa using hid), hold, Rule.alone_snoc_of_not_about (Or.inl hlabels)]

theorem processed_run {S : Labels → Prop} (hS : Labels.Separate S) {rs : RuleInstances}
    {vs : List Verdict} (hvs : ∀ v ∈ vs, S (r.expand extra v.labels))
    (h : (run r extra p history rs vs).failed = false) :
    (run r extra p history rs vs).processed = r.snapshots extra p history rs vs := by
  induction vs using List.reverseRecOn with
  | nil => rfl
  | append_singleton vs v ih =>
      obtain ⟨hs, -, -, hcases⟩ := run_snoc_cases h
      have hvs' : ∀ u ∈ vs, S (r.expand extra u.labels) := fun u hu =>
        hvs u (List.mem_append_left _ hu)
      have hfind : (run r extra p history rs vs).instances.find? (r.idOf extra v) =
          r.alone extra p history (r.expand extra v.labels) (rs.find? (r.idOf extra v)) vs :=
        find?_run_eq_alone hS hvs' hs (hvs v (by simp))
      rw [Rule.snapshots_snoc, ← ih hvs' hs]
      rcases hcases with ⟨hpending, -, hprocessed⟩ | ⟨hcounts, after, hafter, -, hprocessed⟩
      · rw [hprocessed, hfind, Rule.alone_snoc_of_not_about (Or.inr hpending)]
      · rw [hprocessed, Rule.alone_snoc_of_about rfl hcounts, hafter, hfind]
        rfl

/-- Two batches say the same of every label set: only verdicts about different ones
have changed places. -/
def Shuffled (r : Rule) (extra : Labels) (vs ws : List Verdict) : Prop :=
  ∀ L, (ws.filter fun v => r.expand extra v.labels = L) =
    vs.filter fun v => r.expand extra v.labels = L

theorem Shuffled.mem_iff {vs ws : List Verdict} (h : Shuffled r extra vs ws) (v : Verdict) :
    v ∈ ws ↔ v ∈ vs := by
  have hmem : ∀ us : List Verdict,
      v ∈ (us.filter fun u => r.expand extra u.labels = r.expand extra v.labels) ↔ v ∈ us :=
    fun us => by simp
  rw [← hmem ws, ← hmem vs, h]

theorem Shuffled.about_eq {vs ws : List Verdict} (h : Shuffled r extra vs ws) (L : Labels) :
    r.about extra L ws = r.about extra L vs := by
  have hfilter : ∀ us : List Verdict, r.about extra L us =
      (us.filter fun v => r.expand extra v.labels = L).filter fun v => v.status ≠ .pending := by
    intro us
    rw [Rule.about, List.filter_filter]
    exact List.filter_congr fun v _ => by simp [and_comm]
  rw [hfilter, hfilter, h]

theorem Shuffled.run_eq {vs ws : List Verdict} (h : Shuffled r extra vs ws)
    (hS : Labels.Separate fun a => ∃ v ∈ vs, a = r.expand extra v.labels) {rs : RuleInstances}
    (hs : (run r extra p history rs vs).failed = false) :
    (run r extra p history rs ws).failed = false ∧
      (run r extra p history rs ws).instances = (run r extra p history rs vs).instances ∧
      ∀ id, (run r extra p history rs ws).seen.contains id =
        (run r extra p history rs vs).seen.contains id := by
  have hs' : (run r extra p history rs ws).failed = false :=
    failed_run_iff.2 fun v hv => failed_run_iff.1 hs v ((h.mem_iff v).1 hv)
  refine ⟨hs', ?_, ?_⟩
  · apply Table.ext_find?
    intro id
    -- an entry that the batch names is that of some labels, and any other stays
    by_cases hid : ∃ v ∈ vs, r.idOf extra v = id
    · obtain ⟨v, hv, rfl⟩ := hid
      have hvs : ∀ u ∈ vs, ∃ w ∈ vs, r.expand extra u.labels = r.expand extra w.labels :=
        fun u hu => ⟨u, hu, rfl⟩
      have hws : ∀ u ∈ ws, ∃ w ∈ vs, r.expand extra u.labels = r.expand extra w.labels :=
        fun u hu => ⟨u, (h.mem_iff u).1 hu, rfl⟩
      have hleft := find?_run_eq_alone hS hws hs' (hvs v hv)
      have hright := find?_run_eq_alone hS hvs hs (hvs v hv)
      unfold Rule.alone at hleft hright
      rw [h.about_eq] at hleft
      exact hleft.trans hright.symm
    · have hvs : ∀ v ∈ vs, r.idOf extra v ≠ id := fun v hv hv' => hid ⟨v, hv, hv'⟩
      rw [find?_run_of_unseen hs hvs,
        find?_run_of_unseen hs' fun v hv => hvs v ((h.mem_iff v).1 hv)]
  · intro id
    rw [seen_run hs, seen_run hs', Bool.eq_iff_iff, List.contains_iff_mem, List.contains_iff_mem,
      List.mem_map, List.mem_map]
    simp only [h.mem_iff]

end Sweep

namespace Cache

variable {c : Cache} {settings : StateSettings} {now : Moment} {r : Rule} {vs : List Verdict}
  {extra : Labels} {p : TransitionPolicy}

/-- A round is a sweep over the entries of the rule, and then the removal of what is
stale. -/
theorem round_of_swept (hp : settings.policy? = some p) {s : Sweep}
    (h : Sweep.run r extra p (settings.historyFor r) (c.ofRule r.key) vs = s)
    (hs : s.failed = false) :
    c.round settings now r vs extra =
      let split := splitStale? now r settings.staleMultiplier s.seen s.instances
      (split.map fun parts => ⟨s.processed, s.changes, parts.1⟩,
        c.setRule r.key (split.elim s.instances Prod.snd)) := by
  unfold Sweep.run at h
  simp only [round, hp, withRule, h, hs]
  cases splitStale? now r settings.staleMultiplier s.seen s.instances <;> rfl

theorem round_of_failed (hp : settings.policy? = some p) {s : Sweep}
    (h : Sweep.run r extra p (settings.historyFor r) (c.ofRule r.key) vs = s)
    (hs : s.failed = true) :
    c.round settings now r vs extra = (none, c.setRule r.key s.instances) := by
  unfold Sweep.run at h
  simp only [round, hp, withRule, h, hs]
  rfl

theorem splitStale?_congr {seen seen' : List String} {multiplier : Nat} {rs : RuleInstances}
    (h : ∀ id, seen.contains id = seen'.contains id) :
    splitStale? now r multiplier seen rs = splitStale? now r multiplier seen' rs := by
  simp only [splitStale?, h]

/-- The limit of every unseen instance has to be in the calendar. -/
theorem splitStale?_isSome_iff {seen : List String} {multiplier : Nat} {rs : RuleInstances} :
    (splitStale? now r multiplier seen rs).isSome = true ↔
      ∀ id i, rs.find? id = some i → seen.contains id = false →
        (i.isStale? now r multiplier).isSome = true := by
  have hunseen : ∀ id i, (rs.filter fun id _ => !seen.contains id).find? id = some i ↔
      rs.find? id = some i ∧ seen.contains id = false := fun id i => by
    rw [Table.find?_filter, Option.filter_eq_some_iff, Bool.not_eq_true']
  unfold splitStale?
  dsimp only
  constructor
  · intro h id i hi hseen
    cases hlimit : i.isStale? now r multiplier with
    | some b => rfl
    | none =>
        have hany : (rs.filter fun id _ => !seen.contains id).values.any
            (fun i => (i.isStale? now r multiplier).isNone) = true :=
          List.any_eq_true.2 ⟨i, Table.mem_values_iff.2 ⟨id, (hunseen id i).2 ⟨hi, hseen⟩⟩,
            by rw [hlimit]; rfl⟩
        rw [if_pos hany] at h
        exact absurd h (by simp)
  · intro h
    rw [if_neg]
    · rfl
    · intro hany
      obtain ⟨i, hi, hlimit⟩ := List.any_eq_true.1 hany
      obtain ⟨id, hi⟩ := Table.mem_values_iff.1 hi
      obtain ⟨hi, hseen⟩ := (hunseen id i).1 hi
      have := h id i hi hseen
      rw [Option.isNone_iff_eq_none.1 hlimit] at this
      exact absurd this (by simp)

theorem find?_of_splitStale? {seen : List String} {multiplier : Nat} {rs kept : RuleInstances}
    {stale : List Instance}
    (h : splitStale? now r multiplier seen rs = some (stale, kept)) (id : String) :
    kept.find? id = (rs.find? id).filter fun i =>
      seen.contains id || i.isStale? now r multiplier != some true := by
  unfold splitStale? at h
  rw [Option.ite_none_left_eq_some] at h
  obtain ⟨-, h⟩ := h
  cases h
  rw [Table.find?_filter]
  congr 1
  funext i
  simp [bne]

/-- What is split off is stale, and no verdict named it. -/
theorem mem_of_splitStale? {seen : List String} {multiplier : Nat} {rs kept : RuleInstances}
    {stale : List Instance} (h : splitStale? now r multiplier seen rs = some (stale, kept))
    (i : Instance) :
    i ∈ stale ↔ ∃ id, rs.find? id = some i ∧ seen.contains id = false ∧
      i.isStale? now r multiplier = some true := by
  unfold splitStale? at h
  rw [Option.ite_none_left_eq_some] at h
  obtain ⟨-, h⟩ := h
  cases h
  rw [Table.mem_values_iff]
  simp only [Table.find?_filter, Option.filter_eq_some_iff, Bool.and_eq_true, Bool.not_eq_true',
    beq_iff_eq]

/-! ## The round -/

/-- A round has an answer if no verdict fails its sweep and no limit of an unseen
instance is out of range. -/
theorem isSome_round_iff (hp : settings.policy? = some p) {s : Sweep}
    (h : Sweep.run r extra p (settings.historyFor r) (c.ofRule r.key) vs = s) :
    (c.round settings now r vs extra).1.isSome = true ↔ s.failed = false ∧
      ∀ id i, s.instances.find? id = some i → (vs.map (r.idOf extra)).contains id = false →
        (i.isStale? now r settings.staleMultiplier).isSome = true := by
  cases hs : s.failed with
  | true => simp [round_of_failed hp h hs]
  | false =>
      have hseen : s.seen = vs.map (r.idOf extra) := by
        rw [← h, Sweep.seen_run (h ▸ hs)]
      rw [round_of_swept hp h hs, Option.isSome_map, splitStale?_isSome_iff, hseen]
      simp only [true_and]

/-- A round with an answer is a sweep that did not fail, less what is stale after it. -/
theorem split_of_round {rd : Round} {c' : Cache}
    (h : c.round settings now r vs extra = (some rd, c')) :
    ∃ p kept, settings.policy? = some p ∧
      let s := Sweep.run r extra p (settings.historyFor r) (c.ofRule r.key) vs
      s.failed = false ∧ rd.processed = s.processed ∧ rd.changes = s.changes ∧
        splitStale? now r settings.staleMultiplier s.seen s.instances = some (rd.stale, kept) ∧
        c' = c.setRule r.key kept := by
  cases hp : settings.policy? with
  | none =>
      unfold round at h
      rw [hp] at h
      cases h
  | some p =>
      cases hs : (Sweep.run r extra p (settings.historyFor r) (c.ofRule r.key) vs).failed with
      | true =>
          rw [round_of_failed hp rfl hs] at h
          cases h
      | false =>
          rw [round_of_swept hp rfl hs] at h
          cases hsplit : splitStale? now r settings.staleMultiplier
              (Sweep.run r extra p (settings.historyFor r) (c.ofRule r.key) vs).seen
              (Sweep.run r extra p (settings.historyFor r) (c.ofRule r.key) vs).instances with
          | none =>
              rw [hsplit] at h
              cases h
          | some parts =>
              rw [hsplit] at h
              cases h
              exact ⟨p, parts.2, rfl, hs, rfl, rfl, hsplit, rfl⟩

/-- A round with an answer gives the instances of its sweep and keeps the entries that
it has seen or that are not stale. -/
theorem processed_and_entries_of_round (hp : settings.policy? = some p) {s : Sweep}
    (h : Sweep.run r extra p (settings.historyFor r) (c.ofRule r.key) vs = s) {rd : Round}
    {c' : Cache} (hround : c.round settings now r vs extra = (some rd, c')) :
    rd.processed = s.processed ∧
      ∀ id, c'.get? r.key id = (s.instances.find? id).filter fun i =>
        (vs.map (r.idOf extra)).contains id ||
          i.isStale? now r settings.staleMultiplier != some true := by
  obtain ⟨p', kept, hp', hs, hprocessed, -, hsplit, rfl⟩ := split_of_round hround
  obtain rfl := Option.some.inj (hp.symm.trans hp')
  rw [h] at hs hprocessed hsplit
  have hseen : s.seen = vs.map (r.idOf extra) := by
    rw [← h, Sweep.seen_run (h ▸ hs)]
  refine ⟨hprocessed, fun id => ?_⟩
  rw [get?, ofRule_setRule, ← hseen]
  exact find?_of_splitStale? hsplit id

/-- **A round is one run for each label set.** Its sweep fails exactly if a verdict does
on its own. Otherwise every entry is that of the separate run, the answer shows the
instance after each verdict, and verdicts about different label sets may change
places. The entries that stay are those of the sweep, less what is stale. -/
theorem round_eq_alone (hp : settings.policy? = some p)
    (hS : Labels.Separate fun a => ∃ v ∈ vs, a = r.expand extra v.labels) :
    let history := settings.historyFor r
    let rs := c.ofRule r.key
    let s := Sweep.run r extra p history rs vs
    (s.failed = false ↔ ∀ v ∈ vs, Sweep.Workable r extra p history rs v) ∧
    (s.failed = false →
      (∀ L, (Labels.Separate fun a => a = L ∨ ∃ v ∈ vs, a = r.expand extra v.labels) →
        s.instances.find? L.id = r.alone extra p history L (c.get? r.key L.id) vs ∧
        ((∀ v ∈ vs, r.expand extra v.labels = L → v.status = .pending) →
          s.instances.find? L.id = c.get? r.key L.id)) ∧
      s.processed = r.snapshots extra p history rs vs ∧
      ∀ ws, Sweep.Shuffled r extra vs ws →
        (c.round settings now r ws extra).2 = (c.round settings now r vs extra).2) ∧
    ((c.round settings now r vs extra).1.isSome = true ↔ s.failed = false ∧
      ∀ id i, s.instances.find? id = some i → (vs.map (r.idOf extra)).contains id = false →
        (i.isStale? now r settings.staleMultiplier).isSome = true) ∧
    ∀ rd c', c.round settings now r vs extra = (some rd, c') →
      rd.processed = s.processed ∧
      ∀ id, c'.get? r.key id = (s.instances.find? id).filter fun i =>
        (vs.map (r.idOf extra)).contains id ||
          i.isStale? now r settings.staleMultiplier != some true := by
  intro history rs s
  have hbatch : ∀ v ∈ vs, ∃ u ∈ vs, r.expand extra v.labels = r.expand extra u.labels :=
    fun v hv => ⟨v, hv, rfl⟩
  refine ⟨Sweep.failed_run_iff, fun hs => ⟨?_, ?_, ?_⟩, ?_, ?_⟩
  · intro L hL
    have hfind : s.instances.find? L.id = r.alone extra p history L (c.get? r.key L.id) vs :=
      Sweep.find?_run_eq_alone hL (fun v hv => Or.inr ⟨v, hv, rfl⟩) hs (Or.inl rfl)
    refine ⟨hfind, fun hpending => ?_⟩
    have habout : r.about extra L vs = [] := by
      rw [Rule.about, List.filter_eq_nil_iff]
      intro v hv hv'
      rw [decide_eq_true_eq] at hv'
      exact hv'.2 (hpending v hv hv'.1)
    rw [hfind, Rule.alone, habout]
  · exact Sweep.processed_run hS hbatch hs
  · intro ws hws
    obtain ⟨hfailed, hinstances, hseen⟩ := hws.run_eq hS hs
    rw [round_of_swept hp rfl hs, round_of_swept hp rfl hfailed, hinstances,
      splitStale?_congr hseen]
  · exact isSome_round_iff hp rfl
  · exact fun rd c' h => processed_and_entries_of_round hp rfl h

/-- A breach on one host, a pending verdict about another, and the end of the breach. -/
def mixed : List Verdict :=
  [("web", .alerting), ("db", .pending), ("web", .normal)].zipIdx.map fun ((host, status), n) =>
    { labels := (∅ : Labels).insert "host" host, status, time := ⟨n * 60 * nanosPerSecond⟩ }

theorem round_eq_alone_mixed :
    (Labels.Separate fun a => ∃ v ∈ mixed, a = ({} : Rule).expand ∅ v.labels) ∧
      ((({} : Cache).round {} ⟨180 * nanosPerSecond⟩ {} mixed ∅).1.map fun rd =>
        rd.processed.map (·.status)) = some [.alerting, .normal] := by
  have hhosts : ∀ a, (∃ v ∈ mixed, a = ({} : Rule).expand ∅ v.labels) →
      a = (∅ : Labels).insert "host" "web" ∨ a = (∅ : Labels).insert "host" "db" := by
    rintro a ⟨v, hv, rfl⟩
    simp only [mixed, List.zipIdx_cons, List.zipIdx_nil, List.map_cons, List.map_nil,
      List.mem_cons, List.not_mem_nil, or_false] at hv
    rcases hv with rfl | rfl | rfl <;> decide
  have hS : Labels.Separate fun a => ∃ v ∈ mixed, a = ({} : Rule).expand ∅ v.labels := by
    refine ⟨fun {a} ha => ?_, fun {a b} ha hb h => ?_⟩
    · rcases hhosts a ha with rfl | rfl <;> decide
    · rcases hhosts a ha with rfl | rfl
      · rcases hhosts b hb with rfl | rfl
        · rfl
        · exact absurd h (by decide +kernel)
      · rcases hhosts b hb with rfl | rfl
        · exact absurd h (by decide +kernel)
        · rfl
  obtain ⟨hfailed, hall, hanswer, hentries⟩ :=
    @round_eq_alone {} {} ⟨180 * nanosPerSecond⟩ {} mixed ∅ ⟨.ofSeconds 90, 10⟩ rfl hS
  have hs := hfailed.2 fun v hv hstatus => by
    refine ⟨fun t ht hn => ?_, Or.inr (by decide)⟩
    simp only [mixed, List.zipIdx_cons, List.zipIdx_nil, List.map_cons, List.map_nil,
      List.mem_cons, List.not_mem_nil, or_false] at hv
    rcases hv with rfl | rfl | rfl <;> decide
  have hsome := hanswer.2 ⟨hs, fun id i hi hid => by
    have hunseen : ∀ v ∈ mixed, ({} : Rule).idOf ∅ v ≠ id := fun v hv hv' => by
      rw [← hv', List.contains_iff_mem.2 (List.mem_map_of_mem hv)] at hid
      exact Bool.noConfusion hid
    rw [Sweep.find?_run_of_unseen hs hunseen] at hi
    cases hi⟩
  refine ⟨hS, ?_⟩
  cases hround : ({} : Cache).round {} ⟨180 * nanosPerSecond⟩ {} mixed ∅ with
  | mk answer c' =>
      rw [hround] at hsome
      obtain ⟨rd, rfl⟩ := Option.isSome_iff_exists.1 hsome
      rw [Option.map_some, (hentries rd c' hround).1, (hall hs).2.1]
      decide +kernel

end Cache

end Vigil
