import Vigil.Proofs.Cache.Confined
import Vigil.Proofs.Engine.Record
import Vigil.Proofs.Round.Resolutions
import Vigil.Proofs.Store.Restart

/-!
# What a round drops

A round first applies its verdicts, which may change entries and add some, and then drops
the entries that no verdict named and that are too old. What it drops is told by the cache
before it: of the instances of the rule those whose labels no verdict has and whose last
evaluation is further back than the limit (`Cache.mem_stale_iff`). Cache, store, journal and
answer are at one about these, whatever the store answers (`PromptStore.evicted_of_round`).
-/

namespace Vigil

/-- A span that is short enough for a displacement can be compared with the clock. -/
theorem Instance.isStale?_eq_true_iff {i : Instance} {now : Moment} {r : Rule} {multiplier : Nat}
    (hspan : r.interval.nanos * multiplier ≤ Span.longestDisplacement)
    (hlimit : (i.isStale? now r multiplier).isSome = true) :
    i.isStale? now r multiplier = some true ↔
      i.lastEvaluation.nanos + r.interval.nanos * multiplier < now.nanos := by
  have htimes : r.interval.times? multiplier = some ⟨r.interval.nanos * multiplier⟩ :=
    if_pos (Nat.lt_of_le_of_lt hspan (by decide))
  have hdisplacement : Span.displacement ⟨r.interval.nanos * multiplier⟩ =
      (r.interval.nanos * multiplier : Nat) := if_pos hspan
  unfold isStale? at hlimit ⊢
  rw [htimes, Option.bind_eq_bind, Option.bind_some] at hlimit ⊢
  cases hafter : i.lastEvaluation.after? ⟨r.interval.nanos * multiplier⟩ with
  | none =>
      rw [hafter] at hlimit
      cases hlimit
  | some limit =>
      obtain ⟨hnanos, -⟩ := Moment.shift?_eq_some_iff.1 hafter
      rw [hdisplacement] at hnanos
      rw [Option.bind_eq_bind, Option.bind_some, Option.pure_def, Option.some_inj,
        decide_eq_true_eq]
      show limit.nanos < now.nanos ↔ _
      rw [hnanos, Int.natCast_mul]

/-- Entries that are under their names are under their identities. -/
theorem RuleInstances.Named.keyed {rs : RuleInstances} {k : RuleKey} (h : rs.Named k) :
    rs.Keyed := fun id i hi => ⟨(h id i hi).id, (h id i hi).labels⟩

namespace Sweep

variable {r : Rule} {extra : Labels} {p : TransitionPolicy} {history : Nat} {s : Sweep}
  {v : Verdict} {ids : List String}

theorem unseen_iff {rs : RuleInstances} {vs : List Verdict}
    (h : (run r extra p history rs vs).failed = false) {id : String} :
    (run r extra p history rs vs).seen.contains id = false ↔ ∀ v ∈ vs, r.idOf extra v ≠ id := by
  rw [seen_run h, ← Bool.not_eq_true, List.contains_iff_mem, List.mem_map]
  exact ⟨fun hno v hv heq => hno ⟨v, hv, heq⟩, fun hno ⟨v, hv, heq⟩ => hno v hv heq⟩

/-- What a sweep answers and takes down is about the identities `ids`, and what it answers is
filed. -/
structure IsAbout (s : Sweep) (ids : List String) : Prop where
  keyed : s.instances.Keyed
  processed : ∀ j ∈ s.processed, j.id ∈ ids ∧ s.instances.contains j.id = true
  changes : ∀ c ∈ s.changes, c.labels.id ∈ ids

/-- **One verdict.** -/
theorem isAbout_take (ha : s.IsAbout ids) (hs : s.failed = false)
    (h : (take r extra p history s v).failed = false) :
    (take r extra p history s v).IsAbout (ids ++ [r.idOf extra v]) := by
  have hids : ∀ {id}, id ∈ ids → id ∈ ids ++ [r.idOf extra v] := List.mem_append_left _
  have hlast : r.idOf extra v ∈ ids ++ [r.idOf extra v] := by simp
  by_cases hv : v.status = .pending
  · rw [take_of_pending hs hv]
    refine ⟨ha.keyed, List.forall_mem_append.2 ⟨fun j hj => ?_, fun j hj => ?_⟩, fun c hc => ?_⟩
    · exact (ha.processed j hj).imp_left hids
    · have hj := Option.mem_toList.1 hj
      rw [(ha.keyed _ j hj).1]
      exact ⟨hlast, Table.contains_iff.2 ⟨j, hj⟩⟩
    · exact hids (ha.changes c hc)
  · obtain ⟨after, t, happly, hinstances, hprocessed, hchanges⟩ := take_of_moved hs hv h
    obtain ⟨hid, hlabels⟩ := id_of_moved ha.keyed happly
    have hfind : ∀ id, (s.instances.insert (r.idOf extra v) after).find? id =
        if id = r.idOf extra v then some after else s.instances.find? id := fun id => by
      simp [Table.find?_insert]
    constructor
    · rw [hinstances]
      exact keyed_insert ha.keyed ⟨hid, hlabels⟩
    · rw [hinstances, hprocessed]
      refine List.forall_mem_append.2 ⟨fun j hj => ?_, List.forall_mem_singleton.2 ?_⟩
      · obtain ⟨hj, hfiled⟩ := ha.processed j hj
        refine ⟨hids hj, ?_⟩
        rw [Table.contains, hfind]
        split
        · rfl
        · exact hfiled
      · rw [hid, Table.contains, hfind, if_pos rfl]
        exact ⟨hlast, rfl⟩
    · intro c hc
      rw [hchanges] at hc
      rcases List.mem_append.1 hc with hc | hc
      · exact hids (ha.changes c hc)
      split at hc
      · rw [List.mem_singleton.1 hc]
        exact hlabels ▸ hlast
      · cases hc

/-- **The verdicts of an evaluation.** -/
theorem isAbout_run {rs : RuleInstances} (hrs : rs.Keyed) {vs : List Verdict}
    (h : (run r extra p history rs vs).failed = false) :
    (run r extra p history rs vs).IsAbout (vs.map (r.idOf extra)) := by
  induction vs using List.reverseRecOn with
  | nil => exact ⟨hrs, List.forall_mem_nil _, List.forall_mem_nil _⟩
  | append_singleton vs v ih =>
      obtain ⟨hs, -⟩ := run_snoc_cases h
      rw [run_snoc] at h ⊢
      rw [List.map_append]
      exact isAbout_take (ih hs) hs h

end Sweep

namespace Cache

variable {c c' : Cache} {settings : StateSettings} {now : Moment} {r : Rule} {vs : List Verdict}
  {extra : Labels} {rd : Round} {i : Instance}

/-- The label sets that a round meets: those of its verdicts and of the instances of its
rule. -/
def Met (c : Cache) (r : Rule) (vs : List Verdict) (extra L : Labels) : Prop :=
  (∃ v ∈ vs, L = r.expand extra v.labels) ∨ ∃ i ∈ (c.ofRule r.key).values, L = i.labels

theorem Named.mem_values_iff (h : c.Named) {k : RuleKey} :
    i ∈ (c.ofRule k).values ↔ (c.ofRule k).find? i.id = some i ∧ i.NamedAs k i.id := by
  rw [Table.mem_values_iff]
  constructor
  · rintro ⟨id, hi⟩
    have hnames := h k id i hi
    rw [hnames.id]
    exact ⟨hi, hnames⟩
  · exact fun hi => ⟨i.id, hi.1⟩

/-- What the sweep of a round leaves unseen was there before it. -/
theorem mem_stale_iff_unseen (hnamed : c.Named)
    (h : c.round settings now r vs extra = (some rd, c')) :
    i ∈ rd.stale ↔ i ∈ (c.ofRule r.key).values ∧ (∀ v ∈ vs, r.idOf extra v ≠ i.id) ∧
      i.isStale? now r settings.staleMultiplier = some true := by
  obtain ⟨p, kept, -, hs, -, -, hsplit, -⟩ := split_of_round h
  rw [mem_of_splitStale? hsplit, hnamed.mem_values_iff]
  simp only [Sweep.unseen_iff hs]
  constructor
  · rintro ⟨id, hi, hid, hstale⟩
    rw [Sweep.find?_run_of_unseen hs hid] at hi
    have hnames := hnamed r.key id i hi
    rw [hnames.id]
    exact ⟨⟨hi, hnames⟩, hid, hstale⟩
  · rintro ⟨⟨hi, -⟩, hid, hstale⟩
    exact ⟨i.id, (Sweep.find?_run_of_unseen hs hid).trans hi, hid, hstale⟩

/-- As the digest does not collide, the verdicts name an instance if one has its labels. -/
theorem unnamed_iff (hnamed : c.Named) (hmet : Labels.Separate (c.Met r vs extra))
    (hi : i ∈ (c.ofRule r.key).values) :
    (∀ v ∈ vs, r.idOf extra v ≠ i.id) ↔ ∀ v ∈ vs, r.expand extra v.labels ≠ i.labels := by
  refine forall₂_congr fun v hv => not_congr ?_
  rw [← (hnamed.mem_values_iff.1 hi).2.labels]
  exact ⟨hmet.eq_of_id_eq (Or.inl ⟨v, hv, rfl⟩) (Or.inr ⟨i, hi, rfl⟩), congrArg Labels.id⟩

/-- **What is stale.** Of the instances that were there it is those whose labels no verdict has
and whose last evaluation is further back than the limit. -/
theorem mem_stale_iff (hnamed : c.Named) (hmet : Labels.Separate (c.Met r vs extra))
    (hspan : r.interval.nanos * settings.staleMultiplier ≤ Span.longestDisplacement)
    (h : c.round settings now r vs extra = (some rd, c')) :
    i ∈ rd.stale ↔ i ∈ (c.ofRule r.key).values ∧ (∀ v ∈ vs, r.expand extra v.labels ≠ i.labels) ∧
      i.lastEvaluation.nanos + r.interval.nanos * settings.staleMultiplier < now.nanos := by
  obtain ⟨p, kept, -, hs, -, -, hsplit, -⟩ := split_of_round h
  have hlimits := splitStale?_isSome_iff.1 (Option.isSome_of_eq_some hsplit)
  rw [mem_stale_iff_unseen hnamed h]
  refine and_congr_right fun hi => ?_
  rw [← unnamed_iff hnamed hmet hi]
  refine and_congr_right fun hid => Instance.isStale?_eq_true_iff hspan ?_
  exact hlimits i.id i
    ((Sweep.find?_run_of_unseen hs hid).trans (hnamed.mem_values_iff.1 hi).1)
    ((Sweep.unseen_iff hs).2 hid)

section Split

variable {seen : List String} {multiplier : Nat} {rs kept : RuleInstances}
  {stale : List Instance} {id : String}

/-- An entry that was seen is kept. -/
theorem find?_of_seen (h : splitStale? now r multiplier seen rs = some (stale, kept))
    (hid : seen.contains id = true) : kept.find? id = rs.find? id := by
  rw [find?_of_splitStale? h, hid]
  cases rs.find? id <;> rfl

/-- An entry that was not seen is kept unless it is stale. -/
theorem find?_of_unseen (h : splitStale? now r multiplier seen rs = some (stale, kept))
    (hid : seen.contains id = false) (hi : rs.find? id = some i) :
    kept.find? id = if i.isStale? now r multiplier = some true then none else some i := by
  rw [find?_of_splitStale? h, hi, Option.filter_some, hid, Bool.false_or]
  by_cases hstale : i.isStale? now r multiplier = some true
  · rw [if_pos hstale, hstale, if_neg (by decide)]
  · rw [if_neg hstale, if_pos (bne_iff_ne.2 hstale)]

theorem nodup_of_splitStale? (hrs : rs.Named r.key)
    (h : splitStale? now r multiplier seen rs = some (stale, kept)) :
    (stale.map Instance.address).Nodup := by
  unfold splitStale? at h
  rw [Option.ite_none_left_eq_some] at h
  obtain ⟨-, h⟩ := h
  cases h
  refine Table.nodup_map_values Prod.snd fun id i hi => ?_
  rw [Table.find?_filter] at hi
  exact (hrs id i (Option.filter_eq_some_iff.1 hi).1).id

end Split

/-- **What becomes of the entries.** What is stale goes. An entry that no verdict named and that
is not stale stays as it was, and what the round answers is cached. -/
theorem entries_of_round (hnamed : c.Named) (h : c.round settings now r vs extra = (some rd, c')) :
    (∀ i ∈ (c.ofRule r.key).values, c'.get? r.key i.id = none ↔ i ∈ rd.stale) ∧
    (∀ i ∈ (c.ofRule r.key).values, i ∉ rd.stale → (∀ v ∈ vs, r.idOf extra v ≠ i.id) →
      c'.get? r.key i.id = some i) ∧
    ∀ j ∈ rd.processed, (c'.get? r.key j.id).isSome = true := by
  obtain ⟨p, kept, -, hs, hprocessed, -, hsplit, rfl⟩ := split_of_round h
  have habout := Sweep.isAbout_run (RuleInstances.Named.keyed (hnamed r.key)) hs
  have hget : ∀ id, (c.setRule r.key kept).get? r.key id = kept.find? id := fun id => by
    rw [get?_setRule, if_pos rfl]
  have hunseen : ∀ i ∈ (c.ofRule r.key).values, (∀ v ∈ vs, r.idOf extra v ≠ i.id) →
      kept.find? i.id =
        if i.isStale? now r settings.staleMultiplier = some true then none else some i :=
    fun i hi hid => find?_of_unseen hsplit ((Sweep.unseen_iff hs).2 hid)
      ((Sweep.find?_run_of_unseen hs hid).trans (hnamed.mem_values_iff.1 hi).1)
  have hseen : ∀ {id}, ¬ (∀ v ∈ vs, r.idOf extra v ≠ id) → (Sweep.run r extra p
      (settings.historyFor r) (c.ofRule r.key) vs).instances.contains id = true →
      (kept.find? id).isSome = true := by
    intro id hid hfiled
    rw [← Sweep.unseen_iff hs, Bool.not_eq_false] at hid
    rw [find?_of_seen hsplit hid]
    exact hfiled
  simp only [hget]
  refine ⟨fun i hi => ?_, fun i hi hkept hid => ?_, fun j hj => ?_⟩
  · rw [mem_stale_iff_unseen hnamed h]
    by_cases hid : ∀ v ∈ vs, r.idOf extra v ≠ i.id
    · rw [hunseen i hi hid, ite_eq_left_iff, and_iff_right hi, and_iff_right hid]
      simp only [reduceCtorEq, imp_false, not_not]
    · have hfiled := Table.contains_iff.2 ⟨i, (hnamed.mem_values_iff.1 hi).1⟩
      have hkept := hseen hid ((Sweep.named_run (hnamed r.key) vs).2 i.id hfiled)
      exact iff_of_false (Option.isSome_iff_ne_none.1 hkept) fun hno => hid hno.2.1
  · rw [hunseen i hi hid, if_neg fun hstale => hkept ?_]
    exact (mem_stale_iff_unseen hnamed h).2 ⟨hi, hid, hstale⟩
  · rw [hprocessed] at hj
    obtain ⟨hid, hfiled⟩ := habout.processed j hj
    obtain ⟨v, hv, heq⟩ := List.mem_map.1 hid
    exact hseen (fun hno => hno v hv heq) hfiled

/-- **What is said of the others.** What is stale has an address each. Neither what the round
answers nor what it takes down is about it. -/
theorem stale_apart (hnamed : c.Named) (h : c.round settings now r vs extra = (some rd, c')) :
    (rd.stale.map Instance.address).Nodup ∧ (∀ j ∈ rd.processed, j.id ∉ rd.stale.map Instance.id) ∧
      ∀ x ∈ rd.changes, x.labels ∉ rd.stale.map Instance.labels := by
  obtain ⟨p, kept, -, hs, hprocessed, hchanges, hsplit, -⟩ := split_of_round h
  have habout := Sweep.isAbout_run (RuleInstances.Named.keyed (hnamed r.key)) hs
  have hunnamed : ∀ i ∈ rd.stale, i.labels.id ∉ vs.map (r.idOf extra) ∧
      i.id ∉ vs.map (r.idOf extra) := by
    intro i hi
    obtain ⟨hi, hid, -⟩ := (mem_stale_iff_unseen hnamed h).1 hi
    have hno : i.id ∉ vs.map (r.idOf extra) := fun hmem => by
      obtain ⟨v, hv, heq⟩ := List.mem_map.1 hmem
      exact hid v hv heq
    rw [(hnamed.mem_values_iff.1 hi).2.labels]
    exact ⟨hno, hno⟩
  refine ⟨?_, fun j hj hmem => ?_, fun x hx hmem => ?_⟩
  · exact nodup_of_splitStale? (Sweep.named_run (hnamed r.key) vs).1 hsplit
  · obtain ⟨i, hi, heq⟩ := List.mem_map.1 hmem
    exact (hunnamed i hi).2 (heq ▸ (habout.processed j (hprocessed ▸ hj)).1)
  · obtain ⟨i, hi, heq⟩ := List.mem_map.1 hmem
    exact (hunnamed i hi).1 (heq ▸ habout.changes x (hchanges ▸ hx))

end Cache

namespace PromptStore

variable {d : Shared} {r : Rule} {vs : List Verdict} {extra : Labels} {processed : List Instance}

/-- **Eviction.** A round that does not fail drops of the instances that were there those whose
labels no verdict has and whose last evaluation is further back than the limit, and no other.
Each of them is gone from the cache and from the answer, has one deletion, under the address
that it is saved under, and has a closing annotation if it was alerting. What the store answers
to that decides on its own rows only. -/
theorem evicted_of_round {s₀ : PromptStore} (hnamed : d.cache.Named)
    (hmet : Labels.Separate (d.cache.Met r vs extra))
    (hspan : r.interval.nanos * d.state.staleMultiplier ≤ Span.longestDisplacement)
    (hround : (s₀.round d r vs extra).1 = some processed) :
    ∃ (gone : List Instance) (changes : List Change) (c' : Cache),
      (∀ i, i ∈ gone ↔ i ∈ (d.cache.ofRule r.key).values ∧
        (∀ v ∈ vs, r.expand extra v.labels ≠ i.labels) ∧
        i.lastEvaluation.nanos + r.interval.nanos * d.state.staleMultiplier < d.clock.nanos) ∧
      (gone.map Instance.address).Nodup ∧
      (∀ i ∈ (d.cache.ofRule r.key).values, c'.get? r.key i.id = none ↔ i ∈ gone) ∧
      (∀ i ∈ (d.cache.ofRule r.key).values, i ∉ gone →
        (∀ v ∈ vs, r.expand extra v.labels ≠ i.labels) → c'.get? r.key i.id = some i) ∧
      (∀ k, k ≠ r.key → c'.ofRule k = d.cache.ofRule k) ∧
      (∀ j ∈ processed, (c'.get? r.key j.id).isSome = true ∧ j.id ∉ gone.map Instance.id) ∧
      (∀ x ∈ changes, x.labels ∉ gone.map Instance.labels) ∧
      ∀ s : PromptStore,
        s.round d r vs extra = (some processed,
          { d with cache := c' }.recorded (d.store.deleteAll (gone.filter s.deletes))
            ((changes.map fun x => d.noted (Change.note r x)) ++
              gone.flatMap fun i => d.deletion i (s.deletes i) :: d.farewell r d.clock i)) ∧
        (s.persist d).2.journal =
          d.journal ++ d.cache.snapshot.map fun i => d.saving i (s.saves i) := by
  cases hcached : d.cache.round d.state d.clock r vs extra with
  | mk answer c' =>
  cases answer with
  | none =>
      unfold round Shared.round at hround
      rw [hcached] at hround
      cases hround
  | some rd =>
      rw [s₀.round_eq hcached] at hround
      obtain rfl := Option.some.inj hround
      obtain ⟨hentries, hkept, hcachedAfter⟩ := Cache.entries_of_round hnamed hcached
      obtain ⟨hnodup, hprocessed, hchanges⟩ := Cache.stale_apart hnamed hcached
      refine ⟨rd.stale, rd.changes, c', fun i => Cache.mem_stale_iff hnamed hmet hspan hcached,
        hnodup, hentries, fun i hi hgone hunnamed => ?_, fun k hk => ?_,
        fun j hj => ⟨hcachedAfter j hj, hprocessed j hj⟩, hchanges,
        fun s => ⟨s.round_eq hcached, s.journal_persist d⟩⟩
      · exact hkept i hi hgone ((Cache.unnamed_iff hnamed hmet hi).2 hunnamed)
      · have hothers := (Cache.Confined.round d.state d.clock r vs extra).ofRule_of_ne d.cache hk
        rw [hcached] at hothers
        exact hothers

/-- Three hosts were found, two of them alerting; the clock has moved on since. -/
def threeHosts : Shared :=
  ({ clock := .epoch } : Shared).calls
    [.process Shared.twoHostRule
      (Shared.found [("web", .alerting), ("db", .normal), ("api", .alerting)] 0) ∅,
      .setClock ⟨30 * nanosPerSecond⟩]

/-- Of one of them it is not known yet how it is. -/
def apiPending : List Verdict := Shared.found [("api", .pending)] 30

def hostLabels (host : String) : Labels := (∅ : Labels).insert "host" host

theorem expand_apiPending :
    ∀ v ∈ apiPending, Shared.twoHostRule.expand ∅ v.labels = hostLabels "api" := by
  decide +kernel

theorem cached_threeHosts :
    ∀ i ∈ (threeHosts.cache.ofRule Shared.twoHostRule.key).values,
      i.labels ∈ ["web", "db", "api"].map hostLabels ∧ i.lastEvaluation = .epoch := by
  have hentries : ∀ e ∈ (threeHosts.cache.ofRule Shared.twoHostRule.key).values.map
      (fun i => (i.labels, i.lastEvaluation)),
      e.1 ∈ ["web", "db", "api"].map hostLabels ∧ e.2 = .epoch := by decide +kernel
  exact fun i hi => hentries _ (List.mem_map_of_mem hi)

/-- The labels of the instances and verdicts of the round. -/
theorem met_threeHosts {L : Labels} (h : threeHosts.cache.Met Shared.twoHostRule apiPending ∅ L) :
    L ∈ ["web", "db", "api"].map hostLabels := by
  rcases h with ⟨v, hv, rfl⟩ | ⟨i, hi, rfl⟩
  · rw [expand_apiPending v hv]
    decide
  · exact (cached_threeHosts i hi).1

theorem evicted_of_round_threeHosts : ∃ gone : List Instance,
    (∀ i, i ∈ gone ↔ i ∈ (threeHosts.cache.ofRule Shared.twoHostRule.key).values ∧
      i.labels ≠ hostLabels "api") ∧
    (gone.map Instance.address).Nodup ∧
    (∃ i ∈ gone, i.status = .alerting ∧ ∃ a : Annotation,
      a.Says Shared.twoHostRule i.labels threeHosts.clock ⟨i.standing, .normal⟩ ∧
        ∀ s : PromptStore, threeHosts.noted a ∈
          (s.round threeHosts Shared.twoHostRule apiPending ∅).2.journal) ∧
    ∀ s : PromptStore, (s.round threeHosts Shared.twoHostRule apiPending ∅).2.store =
      threeHosts.store.deleteAll (gone.filter s.deletes) := by
  have hseparate : ∀ a ∈ ["web", "db", "api"].map hostLabels, a.Encodable ∧
      ∀ b ∈ ["web", "db", "api"].map hostLabels,
        Sha256.hex a.encode = Sha256.hex b.encode → a.encode = b.encode := by decide +kernel
  have hmet : Labels.Separate (threeHosts.cache.Met Shared.twoHostRule apiPending ∅) :=
    ⟨fun ha => (hseparate _ (met_threeHosts ha)).1,
      fun ha hb => (hseparate _ (met_threeHosts ha)).2 _ (met_threeHosts hb)⟩
  obtain ⟨hmirrors, hstate⟩ : threeHosts.Mirrors ∧ threeHosts.state = {} :=
    Shared.mirrors_calls ⟨Cache.named_empty, Store.tidy_empty,
      fun _ hrow => absurd hrow List.not_mem_nil⟩ _
  obtain ⟨processed, hround⟩ : ∃ processed, (reliable.round threeHosts Shared.twoHostRule
      apiPending ∅).1 = some processed := Option.isSome_iff_exists.1 (by decide +kernel)
  obtain ⟨gone, changes, c', hgone, hnodup, -, -, -, -, -, hstores⟩ :=
    evicted_of_round hmirrors.named hmet (by rw [hstate]; decide +kernel) hround
  have hlisted : ∀ i, i ∈ gone ↔ i ∈ (threeHosts.cache.ofRule Shared.twoHostRule.key).values ∧
      i.labels ≠ hostLabels "api" := by
    refine fun i => (hgone i).trans (and_congr_right fun hi => ?_)
    rw [(cached_threeHosts i hi).2, hstate]
    have hlate : Moment.epoch.nanos + Shared.twoHostRule.interval.nanos *
        ({} : StateSettings).staleMultiplier < (30 * nanosPerSecond : Int) := by decide +kernel
    refine (and_iff_left hlate).trans ⟨fun hno heq => ?_, fun hno v hv => ?_⟩
    · obtain ⟨v, hv⟩ : ∃ v, v ∈ apiPending := ⟨_, List.mem_singleton_self _⟩
      exact hno v hv ((expand_apiPending v hv).trans heq.symm)
    · rw [expand_apiPending v hv]
      exact hno.symm
  refine ⟨gone, hlisted, hnodup, ?_, fun s => by rw [(hstores s).1]; rfl⟩
  have hweb : ((threeHosts.cache.ofRule Shared.twoHostRule.key).values.any fun i =>
      decide (i.labels ≠ hostLabels "api") && i.status == .alerting) = true := by decide +kernel
  obtain ⟨i, hi, hboth⟩ := List.any_eq_true.1 hweb
  rw [Bool.and_eq_true, decide_eq_true_eq, beq_iff_eq] at hboth
  have higone := (hlisted i).2 ⟨hi, hboth.1⟩
  obtain ⟨a, ha, hfarewell⟩ :=
    threeHosts.exists_farewell Shared.twoHostRule threeHosts.clock hboth.2
  refine ⟨i, higone, hboth.2, a, ha, fun s => ?_⟩
  rw [(hstores s).1]
  refine List.mem_append_right _ (List.mem_append_right _ (List.mem_flatMap.2 ⟨i, higone, ?_⟩))
  rw [hfarewell]
  exact List.mem_cons_of_mem _ List.mem_cons_self

end PromptStore

end Vigil
