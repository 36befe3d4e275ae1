import Vigil.Proofs.Round.Eviction

/-!
# Annotations replay the instances

A round asks for an annotation for every verdict that changes the state or the reason of its
instance, in the order of the verdicts (`Sweep.changes_run`). The annotations of one instance
since it was made are a chain: the first starts from normal, each later one where the one before
it ended, and the last one ends where the instance is (`Instance.Told`). One verdict keeps that
(`Sweep.told_take`), so a run of rounds does, also if several verdicts of a round are about one
instance and if the instance has been dropped and made anew (`PromptStore.replay`).
-/

namespace Vigil

/-! ## What is shown of a standing -/

namespace Standing

/-- The reasons that instances have: none, or the state of a verdict. -/
def reasons : List String := "" :: Status.all.map Status.text

/-- A standing with a reason that instances have. -/
def Sayable (s : Standing) : Prop := s.reason ∈ reasons

/-- What is shown tells the state and the reason. -/
theorem text_inj {s t : Standing} (hs : s.Sayable) (ht : t.Sayable) (h : s.text = t.text) :
    s = t := by
  have hstatus : ∀ a : Status, a ∈ Status.all := by
    intro a
    cases a <;> decide
  have hall : ∀ a ∈ Status.all, ∀ x ∈ reasons, ∀ b ∈ Status.all, ∀ y ∈ reasons,
      text ⟨a, x⟩ = text ⟨b, y⟩ → a = b ∧ x = y := by decide +kernel
  obtain ⟨heq, heq'⟩ := hall _ (hstatus s.status) _ hs _ (hstatus t.status) _ ht h
  cases s
  cases t
  cases heq
  cases heq'
  rfl

end Standing

theorem Transition.changed_iff {t : Transition} :
    t.changed = true ↔ t.previous ≠ t.current := bne_iff_ne

namespace Instance

variable {i after : Instance} {r : Rule} {v : Verdict} {p : TransitionPolicy} {t : Transition}

theorem sayable_of_moved (h : i.apply r v p = (after, .moved t)) : after.standing.Sayable := by
  have hreason : ∀ status, reasonFor status v ∈ Standing.reasons := by
    intro status
    unfold reasonFor
    split
    · cases v.status <;> decide
    · decide
  unfold apply at h
  split at h
  · cases h
  dsimp only at h
  split at h
  · cases h
  · cases h
    exact hreason _

/-! ## The annotations of one instance -/

/-- The annotations tell how the instance came to stand as it does. -/
structure Told (i : Instance) (ns : List Annotation) : Prop where
  /-- The first starts from normal, each later one where the one before it ended, and the last
  one ends where the instance is. Without any the instance is normal. -/
  chain : ns.map (·.previous) ++ [i.standing.text] =
    Standing.normal.text :: ns.map (·.current)
  /-- Each of them shows a change. -/
  shown : ∀ a ∈ ns, a.previous ≠ a.current
  /-- What they show are the states that the instance was in, with their reasons. -/
  standings : ∃ ts : List Transition,
    ts.map (·.previous) ++ [i.standing] = .normal :: ts.map (·.current) ∧
      List.Forall₂ (fun a t => ∃ (r : Rule) (σ : Moment), a.Says r i.labels σ t) ns ts
  sayable : i.standing.Sayable

theorem told_new (r : Rule) (labels : Labels) (history : Nat) :
    (new r labels history).Told [] := by
  constructor
  · rfl
  · exact List.forall_mem_nil _
  · exact ⟨[], rfl, .nil⟩
  · exact List.mem_cons_self

/-- A change from where the instance was to another standing goes on with the chain. -/
theorem Told.snoc {ns : List Annotation} {a : Annotation} {σ : Moment} (hi : i.Told ns)
    (hlabels : after.labels = i.labels) (hsayable : after.standing.Sayable)
    (hne : i.standing ≠ after.standing)
    (ha : a.Says r after.labels σ ⟨i.standing, after.standing⟩) : after.Told (ns ++ [a]) := by
  obtain ⟨ts, hchain, hsaid⟩ := hi.standings
  refine ⟨?_, ?_, ⟨ts ++ [⟨i.standing, after.standing⟩], ?_, ?_⟩, hsayable⟩
  · rw [List.map_append, List.map_append, List.map_singleton, List.map_singleton, ha.previous,
      ha.current, hi.chain]
    rfl
  · refine List.forall_mem_append.2 ⟨hi.shown, List.forall_mem_singleton.2 ?_⟩
    rw [ha.previous, ha.current]
    exact fun htext => hne (Standing.text_inj hi.sayable hsayable htext)
  · rw [List.map_append, List.map_append, List.map_singleton, List.map_singleton, hchain]
    rfl
  · rw [← hlabels] at hsaid
    exact List.rel_append hsaid (.cons ⟨r, σ, ha⟩ .nil)

/-- **One verdict** adds the annotation of the change that it makes, if it makes one. -/
theorem Told.moved {ns : List Annotation} (hi : i.Told ns) (h : i.apply r v p = (after, .moved t)) :
    after.Told
      (ns ++ if t.changed then [(⟨after.labels, v.time, t⟩ : Change).note r] else []) := by
  have hsayable := sayable_of_moved h
  obtain ⟨⟨-, hlabels⟩, -, rfl⟩ := apply_eq_moved_fields h
  by_cases hchanged : (⟨i.standing, after.standing⟩ : Transition).changed = true
  · rw [if_pos hchanged]
    exact hi.snoc hlabels hsayable (Transition.changed_iff.1 hchanged) (Change.says_note r _)
  · rw [if_neg hchanged, List.append_nil]
    have heq : i.standing = after.standing := by
      by_contra hne
      exact hchanged (Transition.changed_iff.2 hne)
    obtain ⟨hchain, hshown, hstandings, -⟩ := hi
    rw [heq] at hchain hstandings
    rw [← hlabels] at hstandings
    exact ⟨hchain, hshown, hstandings, hsayable⟩

end Instance

/-! ## The changes of a sweep -/

/-- How the instance under `id` stands. One that is not there stands as a new one does. -/
def RuleInstances.standing (rs : RuleInstances) (id : String) : Standing :=
  ((rs.find? id).map (·.standing)).getD .normal

namespace Rule

variable {r : Rule} {extra : Labels} {p : TransitionPolicy} {history : Nat}

/-- The change that the verdict `v`, which comes after `us`, makes to its instance. -/
def turn? (r : Rule) (extra : Labels) (p : TransitionPolicy) (history : Nat) (rs : RuleInstances)
    (us : List Verdict) (v : Verdict) : Option Change :=
  let before := (Sweep.run r extra p history rs us).instances
  let after := (Sweep.run r extra p history rs (us ++ [v])).instances
  let old := RuleInstances.standing before (r.idOf extra v)
  (after.find? (r.idOf extra v)).bind fun i =>
    if i.standing = old then none else some ⟨i.labels, v.time, ⟨old, i.standing⟩⟩

/-- The changes that verdicts make, in the order of the verdicts. -/
def turns (r : Rule) (extra : Labels) (p : TransitionPolicy) (history : Nat) (rs : RuleInstances)
    (vs : List Verdict) : List Change :=
  vs.inits.filterMap fun us => us.getLast?.bind (r.turn? extra p history rs us.dropLast)

theorem turns_snoc (rs : RuleInstances) (vs : List Verdict) (v : Verdict) :
    r.turns extra p history rs (vs ++ [v]) =
      r.turns extra p history rs vs ++ (r.turn? extra p history rs vs v).toList := by
  unfold turns
  rw [filterMap_inits_snoc, List.getLast?_concat, Option.bind_some, List.dropLast_concat]

end Rule

namespace Sweep

variable {r : Rule} {extra : Labels} {p : TransitionPolicy} {history : Nat} {rs : RuleInstances}
  {s : Sweep} {vs : List Verdict} {v : Verdict} {id : String}

theorem standing_subject (r : Rule) (extra : Labels) (history : Nat) (s : Sweep) (v : Verdict) :
    (s.subject r extra history v).standing =
      RuleInstances.standing s.instances (r.idOf extra v) := by
  unfold subject RuleInstances.standing
  cases s.instances.find? (r.idOf extra v) <;> rfl

/-- **The changes of a sweep** are those that its verdicts make, in their order. -/
theorem changes_run (h : (run r extra p history rs vs).failed = false) :
    (run r extra p history rs vs).changes = r.turns extra p history rs vs := by
  induction vs using List.reverseRecOn with
  | nil => rfl
  | append_singleton vs v ih =>
      obtain ⟨hs, -⟩ := run_snoc_cases h
      rw [Rule.turns_snoc, ← ih hs]
      unfold Rule.turn?
      rw [run_snoc] at h ⊢
      by_cases hv : v.status = .pending
      · rw [take_of_pending hs hv]
        dsimp only
        unfold RuleInstances.standing
        cases (run r extra p history rs vs).instances.find? (r.idOf extra v) with
        | none => simp
        | some i => simp
      · obtain ⟨after, t, happly, hinstances, -, hchanges⟩ := take_of_moved hs hv h
        obtain ⟨-, -, rfl⟩ := Instance.apply_eq_moved_fields happly
        rw [hchanges, hinstances]
        dsimp only
        rw [Table.find?_insert, if_pos Std.ReflCmp.compare_self, Option.bind_some,
          standing_subject]
        congr 1
        by_cases hsame : after.standing = RuleInstances.standing
            (run r extra p history rs vs).instances (r.idOf extra v)
        · rw [if_pos hsame, if_neg fun h => Transition.changed_iff.1 h hsame.symm]
          rfl
        · rw [if_neg hsame, if_pos (Transition.changed_iff.2 (Ne.symm hsame))]
          rfl

/-- A change is dated by a verdict that counts and names its instance. -/
theorem exists_verdict_of_mem_changes (hrs : rs.Keyed)
    (h : (run r extra p history rs vs).failed = false) {c : Change}
    (hc : c ∈ (run r extra p history rs vs).changes) :
    ∃ v ∈ vs, v.status ≠ .pending ∧ r.idOf extra v = c.labels.id ∧ c.time = v.time := by
  induction vs using List.reverseRecOn with
  | nil => cases hc
  | append_singleton vs v ih =>
      obtain ⟨hs, -⟩ := run_snoc_cases h
      have hold : c ∈ (run r extra p history rs vs).changes → ∃ u ∈ vs ++ [v],
          u.status ≠ .pending ∧ r.idOf extra u = c.labels.id ∧ c.time = u.time := by
        intro hc
        obtain ⟨u, hu, hcause⟩ := ih hs hc
        exact ⟨u, List.mem_append_left _ hu, hcause⟩
      rw [run_snoc] at h hc
      by_cases hv : v.status = .pending
      · rw [take_of_pending hs hv] at hc
        exact hold hc
      · obtain ⟨after, t, happly, -, -, hchanges⟩ := take_of_moved hs hv h
        rw [hchanges] at hc
        rcases List.mem_append.1 hc with hc | hc
        · exact hold hc
        split at hc
        · obtain rfl := List.mem_singleton.1 hc
          have hkeyed := (isAbout_run hrs hs).keyed
          exact ⟨v, by simp, hv, (id_of_moved hkeyed happly).2.symm, rfl⟩
        · cases hc

/-- The annotations tell how the instance under an identity came to stand as it does; nothing is
told of one that is not there. -/
def Tells (ns : List Annotation) : Option Instance → Prop
  | some i => i.Told ns
  | none => ns = []

theorem told_subject {ns : List Annotation}
    (h : Tells ns (s.instances.find? (r.idOf extra v))) :
    (s.subject r extra history v).Told ns := by
  unfold subject
  cases hknown : s.instances.find? (r.idOf extra v) with
  | none =>
      rw [hknown] at h
      rw [show ns = [] from h]
      exact Instance.told_new r _ history
  | some i =>
      rw [hknown] at h
      exact h

/-- The annotations of the instance under `id`. -/
def notesOf (r : Rule) (s : Sweep) (id : String) : List Annotation :=
  (s.changes.filter (·.labels.id == id)).map (·.note r)

/-- **One verdict** keeps the annotations of every instance a chain. -/
theorem told_take {ns : List Annotation} (hk : s.instances.Keyed) (hs : s.failed = false)
    (h : (take r extra p history s v).failed = false)
    (htold : Tells (ns ++ s.notesOf r id) (s.instances.find? id)) :
    Tells (ns ++ (take r extra p history s v).notesOf r id)
      ((take r extra p history s v).instances.find? id) := by
  by_cases hv : v.status = .pending
  · rw [take_of_pending hs hv]
    exact htold
  · obtain ⟨after, t, happly, hinstances, -, hchanges⟩ := take_of_moved hs hv h
    have hnamed := (id_of_moved hk happly).2
    unfold notesOf at htold ⊢
    rw [hinstances, hchanges, Table.find?_insert, List.filter_append, List.map_append,
      ← List.append_assoc]
    by_cases hid : r.idOf extra v = id
    · subst hid
      have habout : ((if t.changed then [(⟨after.labels, v.time, t⟩ : Change)] else []).filter
          (·.labels.id == r.idOf extra v)).map (·.note r) =
          if t.changed then [(⟨after.labels, v.time, t⟩ : Change).note r] else [] := by
        split <;> simp [hnamed]
      rw [if_pos Std.ReflCmp.compare_self, habout]
      exact (told_subject htold).moved happly
    · have hother : (if t.changed then [(⟨after.labels, v.time, t⟩ : Change)] else []).filter
          (·.labels.id == id) = [] := by
        split <;> simp [hnamed, hid]
      rw [hother, List.map_nil, List.append_nil, if_neg (by simpa using Ne.symm hid)]
      exact htold

/-- **The verdicts of a round** keep them chains. -/
theorem told_run {ns : List Annotation} (hrs : rs.Keyed)
    (h : (run r extra p history rs vs).failed = false) (htold : Tells ns (rs.find? id)) :
    Tells (ns ++ (run r extra p history rs vs).notesOf r id)
      ((run r extra p history rs vs).instances.find? id) := by
  induction vs using List.reverseRecOn with
  | nil =>
      show Tells (ns ++ []) (rs.find? id)
      rw [List.append_nil]
      exact htold
  | append_singleton vs v ih =>
      obtain ⟨hs, -⟩ := run_snoc_cases h
      rw [run_snoc] at h ⊢
      exact told_take (isAbout_run hrs hs).keyed hs h (ih hs)

end Sweep

/-! ## A run of rounds -/

/-- One round of a run. -/
structure Chapter where
  finding : Finding
  /-- The instances that the rule had before it. -/
  known : RuleInstances
  round : Round

namespace Chapter

/-- The annotations that the chapter asks for, the ends of what it drops apart. -/
def notes (x : Chapter) : List Annotation := x.round.changes.map (·.note x.finding.rule)

/-- Those of the instance under `id`. -/
def notesOf (x : Chapter) (id : String) : List Annotation :=
  (x.round.changes.filter (·.labels.id == id)).map (·.note x.finding.rule)

/-- The annotations of the instance under `id` since it was made, after a chapter. One that was
not known before the chapter has been made in it. -/
def append (id : String) (ns : List Annotation) (x : Chapter) : List Annotation :=
  (if x.known.contains id then ns else []) ++ x.notesOf id

/-- The annotations of the instance under `id` since it was made. -/
def since (id : String) (xs : List Chapter) : List Annotation := xs.foldl (append id) []

/-- A chapter asks for annotations for what its verdicts change. -/
structure Annotates (settings : StateSettings) (x : Chapter) : Prop where
  /-- One for each verdict that changes the state or the reason of its instance, in the order
  of the verdicts. -/
  turns : ∃ p, settings.policy? = some p ∧
    List.Forall₂ (fun a c => a.Says x.finding.rule c.labels c.time c.transition) x.notes
      (x.finding.rule.turns x.finding.extra p (settings.historyFor x.finding.rule) x.known
        x.finding.verdicts)
  /-- It is dated by that verdict. -/
  dated : ∀ c ∈ x.round.changes, ∃ v ∈ x.finding.verdicts, v.status ≠ .pending ∧
    x.finding.rule.idOf x.finding.extra v = c.labels.id ∧
    (c.note x.finding.rule).epochMillis = v.time.millis

end Chapter

namespace PromptStore

variable {s : PromptStore} {d d' : Shared} {k : RuleKey} {f : Finding} {fs : List Finding}
  {x : Chapter} {xs : List Chapter}

/-- A round at the time of the finding. There is no answer if the round fails. -/
def chapter? (s : PromptStore) (d : Shared) (f : Finding) : Option (Chapter × Shared) :=
  match d.cache.round d.state f.now f.rule f.verdicts f.extra with
  | (none, _) => none
  | (some rd, _) => some (⟨f, d.cache.ofRule f.rule.key, rd⟩,
      (s.round { d with clock := f.now } f.rule f.verdicts f.extra).2)

/-- Rounds one after the other. -/
def chapters? (s : PromptStore) (d : Shared) : List Finding → Option (List Chapter × Shared)
  | [] => some ([], d)
  | f :: fs => do
    let (x, d) ← s.chapter? d f
    let (xs, d) ← s.chapters? d fs
    return (x :: xs, d)

/-- What a chapter leaves in the journal: its annotations, and the ends of the instances that
it drops. -/
def entries (s : PromptStore) (d : Shared) (x : Chapter) : List Entry :=
  x.notes.map d.noted ++
    x.round.stale.flatMap (s.parting d x.finding.rule x.finding.now)

theorem chapter?_eq_some (h : s.chapter? d f = some (x, d')) :
    x.finding = f ∧ x.known = d.cache.ofRule f.rule.key ∧
      d.cache.round d.state f.now f.rule f.verdicts f.extra = (some x.round, d'.cache) ∧
      d'.state = d.state ∧ d'.uptime = d.uptime ∧ d'.journal = d.journal ++ s.entries d x := by
  unfold chapter? at h
  split at h
  · cases h
  rename_i rd c' hround
  cases h
  have hwhole := s.round_eq (d := { d with clock := f.now }) hround
  rw [hwhole]
  refine ⟨rfl, rfl, hround, rfl, rfl, ?_⟩
  unfold entries Chapter.notes
  rw [List.map_map]
  rfl

theorem chapters?_cons (h : s.chapters? d (f :: fs) = some (xs, d')) :
    ∃ x d₁ ys, s.chapter? d f = some (x, d₁) ∧ s.chapters? d₁ fs = some (ys, d') ∧
      xs = x :: ys := by
  obtain ⟨⟨x, d₁⟩, hx, h⟩ := Option.bind_eq_some_iff.1 h
  obtain ⟨⟨ys, d₂⟩, hys, h⟩ := Option.bind_eq_some_iff.1 h
  cases h
  exact ⟨x, d₁, ys, hx, hys, rfl⟩

/-- Entries are dated by the time since the start. -/
theorem entries_congr {d₁ : Shared} (h : d₁.uptime = d.uptime) (x : Chapter) :
    s.entries d₁ x = s.entries d x := by
  unfold entries parting Shared.farewell Shared.deletion Shared.noted
  rw [h]

/-- **One chapter** annotates what its verdicts change, and keeps the annotations of an instance
a chain. -/
theorem told_chapter (hk : (d.cache.ofRule f.rule.key).Keyed)
    (h : s.chapter? d f = some (x, d')) :
    (d'.cache.ofRule f.rule.key).Keyed ∧ x.Annotates d.state ∧
      ∀ id ns, (∀ i, d.cache.get? f.rule.key id = some i → i.Told ns) →
        ∀ i, d'.cache.get? f.rule.key id = some i → i.Told (Chapter.append id ns x) := by
  obtain ⟨rfl, hknown, hround, -⟩ := chapter?_eq_some h
  obtain ⟨p, hp, hs, -, hchanges, hentries⟩ := Cache.sweep_of_round hround
  refine ⟨?_, ?_, ?_⟩
  · intro id i hi
    exact (Sweep.isAbout_run hk hs).keyed id i (hentries id i hi)
  · constructor
    · refine ⟨p, hp, ?_⟩
      rw [hknown]
      unfold Chapter.notes
      rw [hchanges, ← Sweep.changes_run hs, List.forall₂_map_left_iff, List.forall₂_same]
      exact fun c _ => c.says_note _
    · intro c hc
      rw [hchanges] at hc
      obtain ⟨v, hv, hcounts, hid, htime⟩ := Sweep.exists_verdict_of_mem_changes hk hs hc
      exact ⟨v, hv, hcounts, hid, congrArg Moment.millis htime⟩
  · intro id ns hold i hi
    unfold Chapter.append Chapter.notesOf
    rw [hknown, hchanges]
    have htold : Sweep.Tells (if (d.cache.ofRule x.finding.rule.key).contains id then ns else [])
        ((d.cache.ofRule x.finding.rule.key).find? id) := by
      unfold Table.contains
      cases hfound : (d.cache.ofRule x.finding.rule.key).find? id with
      | none => rfl
      | some j => exact hold j hfound
    have hrun := Sweep.told_run hk hs htold
    rw [hentries id i hi] at hrun
    exact hrun

/-- **A run of chapters** does so as well. -/
theorem told_chapters (hk : (d.cache.ofRule k).Keyed) (hfs : ∀ f ∈ fs, f.rule.key = k)
    (h : s.chapters? d fs = some (xs, d')) :
    xs.map (·.finding) = fs ∧ d'.journal = d.journal ++ xs.flatMap (s.entries d) ∧
      (∀ x ∈ xs, x.Annotates d.state) ∧
      ∀ id ns, (∀ i, d.cache.get? k id = some i → i.Told ns) →
        ∀ i, d'.cache.get? k id = some i → i.Told (xs.foldl (Chapter.append id) ns) := by
  induction fs generalizing d xs with
  | nil =>
      cases h
      refine ⟨rfl, (List.append_nil _).symm, List.forall_mem_nil _, ?_⟩
      intro id ns hold
      exact hold
  | cons f fs ih =>
      obtain ⟨x, d₁, ys, hx, hys, rfl⟩ := chapters?_cons h
      obtain rfl := hfs f List.mem_cons_self
      obtain ⟨hfinding, -, -, hstate, huptime, hjournal⟩ := chapter?_eq_some hx
      obtain ⟨hk₁, hannotates, hone⟩ := told_chapter hk hx
      obtain ⟨hfindings, hjournal', hannotates', hrest⟩ :=
        ih hk₁ (fun g hg => hfs g (List.mem_cons_of_mem _ hg)) hys
      have hentries : s.entries d₁ = s.entries d := funext fun y => entries_congr huptime y
      refine ⟨?_, ?_, ?_, ?_⟩
      · rw [List.map_cons, hfinding, hfindings]
      · rw [hjournal', hjournal, hentries, List.flatMap_cons, List.append_assoc]
      · rw [hstate] at hannotates'
        exact List.forall_mem_cons.2 ⟨hannotates, hannotates'⟩
      · intro id ns hold i hi
        exact hrest id _ (hone id ns hold) i hi

/-- **Replay.** Over rounds of a rule that had no instances, each round asks for an annotation
for every verdict that changes the state or the reason of its instance, in the order of the
verdicts and at their times, and for no other but for the ends of the instances that it drops.
For every instance that is cached in the end the annotations since it was made lead from normal
to where it is, one from where the one before it led. -/
theorem replay (hempty : d.cache.ofRule k = ∅) (hfs : ∀ f ∈ fs, f.rule.key = k)
    (h : s.chapters? d fs = some (xs, d')) :
    xs.map (·.finding) = fs ∧ d'.journal = d.journal ++ xs.flatMap (s.entries d) ∧
      (∀ x ∈ xs, x.Annotates d.state) ∧
      ∀ id i, d'.cache.get? k id = some i → i.Told (Chapter.since id xs) := by
  have hnone : ∀ id i, (d.cache.ofRule k).find? id ≠ some i := by
    intro id i hi
    rw [hempty] at hi
    cases (show none = some i from hi)
  have hkeyed : (d.cache.ofRule k).Keyed := by
    intro id i hi
    exact absurd hi (hnone id i)
  obtain ⟨hfindings, hjournal, hannotates, htold⟩ := told_chapters hkeyed hfs h
  refine ⟨hfindings, hjournal, hannotates, ?_⟩
  intro id i hi
  apply htold id [] _ i hi
  intro j hj
  exact absurd hj (hnone id j)

/-- A rule that counts missing data as a breach. -/
def strictRule : Rule := { uid := "a", onNoData := .alerting }

/-- A breach and missing data in one evaluation, and then the end of the breach. -/
def breachAndSilence : List Finding :=
  [⟨strictRule, Shared.found [("web", .alerting), ("db", .normal), ("web", .noData)] 0, ∅, .epoch⟩,
    ⟨strictRule, Shared.found [("web", .pending), ("web", .normal)] 10, ∅,
      ⟨10 * nanosPerSecond⟩⟩]

theorem replay_breachAndSilence : ∃ xs d' i,
    reliable.chapters? { clock := .epoch } breachAndSilence = some (xs, d') ∧
      d'.cache.get? strictRule.key Shared.webId = some i ∧
      i.Told (Chapter.since Shared.webId xs) ∧
      (Chapter.since Shared.webId xs).map (fun a => (a.previous, a.current, a.epochMillis)) =
        [("Normal", "Alerting", 0), ("Alerting", "Alerting (NoData)", 0),
          ("Alerting (NoData)", "Normal", 10000)] := by
  have hrun : (reliable.chapters? { clock := .epoch } breachAndSilence).map (fun (xs, d') =>
      ((d'.cache.get? strictRule.key Shared.webId).isSome,
        (Chapter.since Shared.webId xs).map fun a => (a.previous, a.current, a.epochMillis))) =
      some (true, [("Normal", "Alerting", 0), ("Alerting", "Alerting (NoData)", 0),
        ("Alerting (NoData)", "Normal", 10000)]) := by decide +kernel
  obtain ⟨⟨xs, d'⟩, hchapters, hseen⟩ := Option.map_eq_some_iff.1 hrun
  obtain ⟨hcached, htexts⟩ := Prod.mk.inj hseen
  obtain ⟨i, hi⟩ := Option.isSome_iff_exists.1 hcached
  have hrule : ∀ f ∈ breachAndSilence, f.rule.key = strictRule.key := by decide
  obtain ⟨-, -, -, htold⟩ := replay rfl hrule hchapters
  exact ⟨xs, d', i, hchapters, hi, htold _ i hi, htexts⟩

end PromptStore

end Vigil
