import Vigil.Proofs.Labels.Naming
import Vigil.Proofs.Round.LabelSets

/-!
# Which entry a verdict falls on

A verdict is about the instance that its rule and its labels make out: for every name the
label of the first source that has one, in whatever order the rule lists its own
(`Rule.expand_of_perm`). A sweep works on one entry for each verdict, that under the identity
of these labels (`Sweep.fallsOn_take`). The bytes behind an identity tell the label sets
apart, so two verdicts fall on the same entry exactly if their labels are the same, as long
as no digest collides (`Rule.faithful`).
-/

namespace Vigil

/-! ## The order of the bindings -/

/-- Adds a binding if its name is free. -/
def Labels.offer (ls : Labels) (e : String × String) : Labels :=
  if ls.contains e.1 then ls else ls.insert e.1 e.2

/-- The bindings of a rule may be offered in any order. -/
theorem Rule.expand_of_perm {r : Rule} {es : List (String × String)}
    (h : es.Perm r.labels.entries) (extra found : Labels) :
    (es ++ found.entries).foldl Labels.offer extra = r.expand extra found := by
  apply Table.ext_find?
  intro n
  have hlisted : Table.look n es = r.labels.find? n :=
    Table.look_of_perm h ((h.map Prod.fst).nodup_iff.2 r.labels.nodup_keys) n
  have hrule : (es.foldl Labels.offer extra).find? n = (extra.find? n).or (Table.look n es) :=
    Labels.find?_foldl_unlessTaken es extra n
  have hall : (found.entries.foldl Labels.offer (es.foldl Labels.offer extra)).find? n =
      ((es.foldl Labels.offer extra).find? n).or (found.find? n) :=
    Labels.find?_foldl_unlessTaken found.entries _ n
  rw [List.foldl_append, hall, hrule, hlisted, r.find?_expand]

/-! ## One verdict, one entry -/

namespace Sweep

variable {r : Rule} {extra : Labels} {p : TransitionPolicy} {history : Nat} {s s' : Sweep}
  {id id' : String}

/-- From `s` to `s'` a sweep works on the entry `id`: it names that one, leaves the others as
they are, and, unless it fails, answers with the one as it then is. -/
structure FallsOn (s s' : Sweep) (id : String) : Prop where
  seen : s'.seen = s.seen ++ [id]
  others : ∀ q, q ≠ id → s'.instances.find? q = s.instances.find? q
  processed : s'.failed = false → s'.processed = s.processed ++ (s'.instances.find? id).toList

theorem FallsOn.unique (h : s.FallsOn s' id) (h' : s.FallsOn s' id') : id = id' := by
  have hseen := h.seen.symm.trans h'.seen
  simpa using hseen

theorem seen_take (hs : s.failed = false) (v : Verdict) :
    (take r extra p history s v).seen = s.seen ++ [r.idOf extra v] := by
  unfold take
  rw [hs, if_neg Bool.false_ne_true]
  dsimp only
  split
  · rfl
  split
  · unfold settle
    dsimp only
    split
    · rfl
    · rfl
    · rfl
  · rfl

theorem find?_take_of_ne (s : Sweep) (v : Verdict) {q : String} (hq : q ≠ r.idOf extra v) :
    (take r extra p history s v).instances.find? q = s.instances.find? q := by
  unfold take
  split
  · rfl
  dsimp only
  split
  · rfl
  split
  · have hinsert : ∀ after : Instance,
        (s.instances.insert (r.idOf extra v) after).find? q = s.instances.find? q := by
      intro after
      rw [Table.find?_insert, if_neg (by simpa using hq)]
    unfold settle
    dsimp only
    split
    · exact hinsert _
    · exact hinsert _
    · exact hinsert _
  · rfl

/-- The entry is that of the labels of the verdict, be it pending or the last one of a sweep
that fails. -/
theorem fallsOn_take (hs : s.failed = false) (v : Verdict) :
    s.FallsOn (take r extra p history s v) (r.idOf extra v) := by
  constructor
  · exact seen_take hs v
  · intro q hq
    exact s.find?_take_of_ne v hq
  · intro htaken
    by_cases hv : v.status = .pending
    · rw [take_of_pending hs hv]
    · have hw : Workable r extra p history s.instances v := by
        by_contra hw
        cases htaken.symm.trans ((failed_take_iff hs v).2 hw)
      obtain ⟨-, hinstances, -, hprocessed⟩ := take_of_workable hs hv hw
      rw [hprocessed, hinstances, Table.find?_insert, if_pos Std.ReflCmp.compare_self]
      rfl

end Sweep

namespace Cache

variable {c : Cache} {settings : StateSettings} {now : Moment} {r : Rule} {extra : Labels}
  {us : List Verdict} {v : Verdict} {id : String}

/-- In an evaluation over the cache `c` the verdict `v`, which comes after `us`, falls on the
entry `id` of its rule. -/
def FallsOn (c : Cache) (settings : StateSettings) (r : Rule) (extra : Labels)
    (us : List Verdict) (v : Verdict) (id : String) : Prop :=
  ∃ p, settings.policy? = some p ∧
    let sweep := Sweep.run r extra p (settings.historyFor r) (c.ofRule r.key)
    (sweep us).failed = false ∧ (sweep us).FallsOn (sweep (us ++ [v])) id

theorem FallsOn.eq_idOf (h : c.FallsOn settings r extra us v id) : id = r.idOf extra v := by
  obtain ⟨p, -, hs, hfalls⟩ := h
  rw [Sweep.run_snoc] at hfalls
  exact hfalls.unique (Sweep.fallsOn_take hs v)

theorem exists_round_eq {vs : List Verdict}
    (h : (c.round settings now r vs extra).1.isSome = true) :
    ∃ rd c', c.round settings now r vs extra = (some rd, c') := by
  obtain ⟨rd, hrd⟩ := Option.isSome_iff_exists.1 h
  exact ⟨rd, _, Prod.ext hrd rfl⟩

/-- Every verdict of a round with an answer falls on an entry. -/
theorem fallsOn_of_round {vs : List Verdict} {rd : Round} {c' : Cache}
    (h : c.round settings now r (us ++ v :: vs) extra = (some rd, c')) :
    c.FallsOn settings r extra us v (r.idOf extra v) := by
  obtain ⟨p, -, hp, hs, -⟩ := split_of_round h
  unfold Sweep.run at hs
  rw [List.foldl_append] at hs
  have hbefore := Sweep.failed_of_foldl_take (v :: vs) hs
  refine ⟨p, hp, hbefore, ?_⟩
  rw [Sweep.run_snoc]
  exact Sweep.fallsOn_take hbefore v

end Cache

namespace Rule

/-- **Faithful identities.** An instance has for every name the label that comes from outside,
or else the rule's, or else the evaluator's, in whatever order the rule lists its own. The bytes
of a label set determine it. So if the digest does not collide on the label sets in `S`, two
verdicts of a rule, each from an evaluation of its own over a cache of its own, fall on the same
entry exactly if they are expanded to the same labels; and each verdict of a round with an
answer falls on one. -/
theorem faithful (r : Rule) (extra : Labels) :
    (∀ found n, (r.expand extra found).find? n =
      ((extra.find? n).or (r.labels.find? n)).or (found.find? n)) ∧
    (∀ es found, es.Perm r.labels.entries →
      (es ++ found.entries).foldl Labels.offer extra = r.expand extra found) ∧
    (∀ a b : Labels, a.Encodable → b.Encodable → a.encode = b.encode → a = b) ∧
    (∀ c settings now us v vs rd c',
      Cache.round c settings now r (us ++ v :: vs) extra = (some rd, c') →
      ∃ id, c.FallsOn settings r extra us v id) ∧
    ∀ S, Labels.Separate S → ∀ u v, S (r.expand extra u.labels) → S (r.expand extra v.labels) →
      ∀ (c c' : Cache) settings settings' us vs id id',
        c.FallsOn settings r extra us u id → c'.FallsOn settings' r extra vs v id' →
        (id = id' ↔ r.expand extra u.labels = r.expand extra v.labels) := by
  refine ⟨?_, ?_, ?_, ?_, ?_⟩
  · exact fun found n => r.find?_expand extra found n
  · exact fun es found hperm => expand_of_perm hperm extra found
  · exact fun a b ha hb h => Labels.encode_inj ha hb h
  · intro c settings now us v vs rd c' hround
    exact ⟨_, Cache.fallsOn_of_round hround⟩
  · intro S hS u v hu hv c c' settings settings' us vs id id' hid hid'
    rw [hid.eq_idOf, hid'.eq_idOf]
    constructor
    · exact hS.eq_of_id_eq hu hv
    · exact congrArg Labels.id

/-- A rule with a label of its own. -/
def ofTeam : Rule := { labels := (∅ : Labels).insert "team" "infra" }

/-- A breach that the evaluator found under some labels. -/
def breachOn (found : Labels) : Verdict := { labels := found, status := .alerting, time := .epoch }

def teamLabels (host : String) : Labels := ((∅ : Labels).insert "host" host).insert "team" "infra"

/-- A breach on a host that the evaluator says is of another team. -/
def otherTeam : Verdict := breachOn (((∅ : Labels).insert "host" "web").insert "team" "web")

def sameTeam (host : String) : Verdict := breachOn ((∅ : Labels).insert "host" host)

theorem expand_ofTeam :
    ofTeam.expand ∅ otherTeam.labels = teamLabels "web" ∧
      ofTeam.expand ∅ (sameTeam "web").labels = teamLabels "web" ∧
      ofTeam.expand ∅ (sameTeam "db").labels = teamLabels "db" ∧
      teamLabels "web" ≠ teamLabels "db" := by
  decide

theorem faithful_ofTeam : ∃ web db, web ≠ db ∧
    ({} : Cache).FallsOn {} ofTeam ∅ [] otherTeam web ∧
    ({} : Cache).FallsOn {} ofTeam ∅ [otherTeam] (sameTeam "web") web ∧
    ({} : Cache).FallsOn {} ofTeam ∅ [otherTeam, sameTeam "web"] (sameTeam "db") db := by
  obtain ⟨hother, hweb, hdb, hhosts⟩ := expand_ofTeam
  have hseparate : ∀ a ∈ [teamLabels "web", teamLabels "db"], a.Encodable ∧
      ∀ b ∈ [teamLabels "web", teamLabels "db"],
        Sha256.hex a.encode = Sha256.hex b.encode → a.encode = b.encode := by decide +kernel
  have hS : Labels.Separate (· ∈ [teamLabels "web", teamLabels "db"]) :=
    ⟨fun ha => (hseparate _ ha).1, fun ha hb => (hseparate _ ha).2 _ hb⟩
  have hanswer : (({} : Cache).round {} .epoch ofTeam
      [otherTeam, sameTeam "web", sameTeam "db"] ∅).1.isSome = true := by decide +kernel
  obtain ⟨rd, c', hround⟩ := Cache.exists_round_eq hanswer
  obtain ⟨-, -, -, hfalls, hsame⟩ := faithful ofTeam ∅
  obtain ⟨id, hid⟩ :=
    hfalls {} {} .epoch [] otherTeam [sameTeam "web", sameTeam "db"] rd c' hround
  obtain ⟨id', hid'⟩ :=
    hfalls {} {} .epoch [otherTeam] (sameTeam "web") [sameTeam "db"] rd c' hround
  obtain ⟨db, hdb'⟩ :=
    hfalls {} {} .epoch [otherTeam, sameTeam "web"] (sameTeam "db") [] rd c' hround
  have hsameHost := hsame _ hS otherTeam (sameTeam "web") (by simp [hother]) (by simp [hweb])
    {} {} {} {} [] [otherTeam] id id' hid hid'
  have hsameTeam := hsame _ hS otherTeam (sameTeam "db") (by simp [hother]) (by simp [hdb])
    {} {} {} {} [] [otherTeam, sameTeam "web"] id db hid hdb'
  obtain rfl := hsameHost.2 (hother.trans hweb.symm)
  refine ⟨id, db, fun heq => hhosts ?_, hid, hid', hdb'⟩
  rw [← hother, ← hdb]
  exact hsameTeam.1 heq

end Rule

end Vigil
