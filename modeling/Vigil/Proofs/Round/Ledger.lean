import Vigil.Proofs.Round.Reports

/-!
# What a run of evaluations reports of one instance

Over a run the entry of an identity carries the date of the last alert about it since it
is there (`Handled.lastSent`, `Cache.sentAt_handleAll`). Verdicts that come in order of
time make reports in that order (`Cache.inOrder_reported`).
-/

namespace Vigil

namespace Handled

/-- What a run reported of the instance under `id`, in order. -/
def reported (id : String) (xs : List Handled) : List Instance := xs.flatMap (·.reports id)

/-- What was sent about it. -/
def alerted (id : String) (xs : List Handled) : List Instance := xs.flatMap (·.alerts id)

/-- The date of the last alert after an evaluation, if `before` is the one before it. -/
def sentAfter (id : String) (before : Option Moment) (x : Handled) : Option Moment :=
  if x.evicts id then none else ((x.alerts id).getLast?.map (·.lastEvaluation)).or before

/-- The date of the last alert about an instance since it is there. -/
def lastSent (id : String) (before : Option Moment) (xs : List Handled) : Option Moment :=
  xs.foldl (sentAfter id) before

variable {id : String} {t : Option Moment} {xs : List Handled}

theorem lastSent_append (id : String) (t : Option Moment) (xs ys : List Handled) :
    lastSent id t (xs ++ ys) = lastSent id (lastSent id t xs) ys :=
  List.foldl_append

/-- An instance that is not dropped carries the date of the last alert. -/
theorem lastSent_of_kept (h : ∀ x ∈ xs, x.evicts id = false) :
    lastSent id t xs = ((alerted id xs).getLast?.map (·.lastEvaluation)).or t := by
  induction xs generalizing t with
  | nil => rfl
  | cons x xs ih =>
      have hone : sentAfter id t x = ((x.alerts id).getLast?.map (·.lastEvaluation)).or t := by
        unfold sentAfter
        rw [h x List.mem_cons_self, if_neg Bool.false_ne_true]
      have hrest := @ih (sentAfter id t x) fun y hy => h y (List.mem_cons_of_mem x hy)
      unfold lastSent alerted at hrest ⊢
      rw [List.foldl_cons, hrest, hone, List.flatMap_cons, List.getLast?_append, Option.map_or,
        Option.or_assoc]

end Handled

namespace Cache

variable {settings : StateSettings} {k : RuleKey} {c c' : Cache} {f : Finding} {x : Handled}
  {fs : List Finding} {xs : List Handled} {id : String}

/-- An evaluation leaves the date of the last alert with the entry. -/
theorem sentAt_handle (hc : (c.ofRule f.rule.key).Filed f.rule.key)
    (h : c.handle? settings f = some (x, c')) (id : String) :
    (c'.get? f.rule.key id).bind (·.sentAt) =
      x.sentAfter id ((c.get? f.rule.key id).bind (·.sentAt)) := by
  rw [get?_handle hc h]
  unfold Handled.sentAfter
  split
  · rfl
  cases hlast : (x.reports id).getLast? with
  | some i =>
      obtain ⟨-, hsent⟩ := report_of_handle hc h (List.mem_of_getLast? hlast)
      rw [Option.some_or, Option.map_some, Option.bind_some, hsent]
  | none =>
      have hno : x.alerts id = [] := by
        rw [alerts_of_handle h, List.getLast?_eq_none_iff.1 hlast]
        rfl
      rw [hno]
      cases c.get? f.rule.key id <;> rfl

/-- **The date of the last alert.** After a run of evaluations the entry of an identity
carries the date of the last alert about it since it is there. -/
theorem sentAt_handleAll (hc : (c.ofRule k).Filed k) (hfs : ∀ f ∈ fs, f.rule.key = k)
    (h : c.handleAll? settings fs = some (xs, c')) :
    (c'.ofRule k).Filed k ∧ ∀ id, (c'.get? k id).bind (·.sentAt) =
      Handled.lastSent id ((c.get? k id).bind (·.sentAt)) xs := by
  induction fs generalizing c xs with
  | nil =>
      cases h
      exact ⟨hc, fun id => rfl⟩
  | cons f fs ih =>
      obtain ⟨x, swept, xs, hx, hxs, rfl⟩ := handleAll?_cons_eq_some_iff.1 h
      obtain rfl := hfs f List.mem_cons_self
      obtain ⟨hfiled, hrest⟩ :=
        ih (filed_handle hc hx) (fun g hg => hfs g (List.mem_cons_of_mem f hg)) hxs
      refine ⟨hfiled, fun id => ?_⟩
      rw [hrest, sentAt_handle hc hx]
      rfl

/-- A run can be taken apart at each of its evaluations. -/
theorem handleAll?_split {before after : List Handled} {y : Handled}
    (h : c.handleAll? settings fs = some (before ++ y :: after, c')) :
    ∃ earlier f later c₁ c₂, fs = earlier ++ f :: later ∧
      c.handleAll? settings earlier = some (before, c₁) ∧ c₁.handle? settings f = some (y, c₂) ∧
      c₂.handleAll? settings later = some (after, c') := by
  induction before generalizing c fs with
  | nil =>
      cases fs with
      | nil => cases h
      | cons f later =>
          obtain ⟨x, c₂, xs, hx, hxs, heq⟩ := handleAll?_cons_eq_some_iff.1 h
          cases heq
          exact ⟨[], f, later, c, c₂, rfl, rfl, hx, hxs⟩
  | cons x before ih =>
      cases fs with
      | nil => cases h
      | cons g fs =>
          obtain ⟨x', swept, xs, hx, hxs, heq⟩ := handleAll?_cons_eq_some_iff.1 h
          cases heq
          obtain ⟨earlier, f, later, c₁, c₂, rfl, hbefore, hy, hafter⟩ := ih hxs
          exact ⟨g :: earlier, f, later, c₁, c₂, rfl,
            handleAll?_cons_eq_some_iff.2 ⟨x, swept, before, hx, hbefore, rfl⟩, hy, hafter⟩

/-- What an evaluation sends it does not drop. -/
theorem evicts_eq_false_of_mem_alerts (hc : (c.ofRule k).Filed k)
    (hfs : ∀ f ∈ fs, f.rule.key = k) {before after : List Handled}
    (h : c.handleAll? settings fs = some (before ++ x :: after, c')) {a : Instance}
    (ha : a ∈ x.alerts id) : x.evicts id = false := by
  obtain ⟨earlier, f, later, c₁, c₂, rfl, hbefore, hx, -⟩ := handleAll?_split h
  have hfiled := (sentAt_handleAll hc (fun g hg => hfs g (List.mem_append_left _ hg)) hbefore).1
  obtain rfl := hfs f (by simp)
  by_contra hevicts
  have hreport := ((mem_alerts_iff hfiled hx).1 ha).1
  rw [reports_eq_nil_of_evicts hfiled hx (by simpa using hevicts)] at hreport
  cases hreport

/-- The alerts of a run are the reports that are due. -/
theorem alerted_eq_filter (h : c.handleAll? settings fs = some (xs, c')) (id : String) :
    Handled.alerted id xs = (Handled.reported id xs).filter fun i =>
      i.needsSending? settings.resendDelay == some true := by
  induction fs generalizing c xs with
  | nil =>
      cases h
      rfl
  | cons f fs ih =>
      obtain ⟨x, swept, xs, hx, hxs, rfl⟩ := handleAll?_cons_eq_some_iff.1 h
      have hrest := ih hxs
      unfold Handled.alerted Handled.reported at hrest ⊢
      rw [List.flatMap_cons, List.flatMap_cons, List.filter_append, alerts_of_handle hx, hrest]

/-- The verdicts of a run come in order of time, and after the entry under `id`. -/
structure Chronological (c : Cache) (k : RuleKey) (id : String) (fs : List Finding) : Prop where
  verdicts : (fs.flatMap (·.verdicts)).Pairwise fun u v => u.time ≤ v.time
  entry : ∀ i, c.get? k id = some i → ∀ v ∈ fs.flatMap (·.verdicts), i.lastEvaluation ≤ v.time

theorem chronological_empty (h : (fs.flatMap (·.verdicts)).Pairwise fun u v => u.time ≤ v.time) :
    ({} : Cache).Chronological k id fs :=
  ⟨h, fun i hi => by cases (show none = some i from hi)⟩

theorem Chronological.left {gs : List Finding} (h : c.Chronological k id (fs ++ gs)) :
    c.Chronological k id fs := by
  obtain ⟨hverdicts, hentry⟩ := h
  rw [List.flatMap_append] at hverdicts hentry
  exact ⟨(List.pairwise_append.1 hverdicts).1,
    fun i hi v hv => hentry i hi v (List.mem_append_left _ hv)⟩

/-- The entry after an evaluation is dated by what there was or by a verdict. -/
theorem follows_handle (h : c.handle? settings f = some (x, c')) :
    Follows c' c (Verdict.dates f.verdicts f.rule) := by
  obtain ⟨swept, hround, -, rfl⟩ := handle?_eq_some_iff.1 h
  have hdates := follows_round c settings f.now f.rule f.verdicts f.extra
  rw [hround] at hdates
  exact (follows_markSent swept x.sent).trans hdates

theorem chronological_of_handle (h : c.handle? settings f = some (x, c'))
    (ht : c.Chronological f.rule.key id (f :: fs)) : c'.Chronological f.rule.key id fs := by
  obtain ⟨hverdicts, hentry⟩ := ht
  rw [List.flatMap_cons] at hverdicts hentry
  obtain ⟨-, hlater, hacross⟩ := List.pairwise_append.1 hverdicts
  refine ⟨hlater, fun i' hi' v hv => ?_⟩
  rcases follows_handle h _ id i' hi' with ⟨old, hold, hdate⟩ | ⟨-, u, hu, hdate⟩
  · exact hdate ▸ hentry old hold v (List.mem_append_right _ hv)
  · exact hdate ▸ hacross u hu v hv

theorem chronological_of_handleAll {gs : List Finding} (hfs : ∀ f ∈ fs, f.rule.key = k)
    (h : c.handleAll? settings fs = some (xs, c')) (ht : c.Chronological k id (fs ++ gs)) :
    c'.Chronological k id gs := by
  induction fs generalizing c xs with
  | nil =>
      cases h
      exact ht
  | cons f fs ih =>
      obtain ⟨x, swept, xs, hx, hxs, rfl⟩ := handleAll?_cons_eq_some_iff.1 h
      obtain rfl := hfs f List.mem_cons_self
      exact ih (fun g hg => hfs g (List.mem_cons_of_mem f hg)) hxs (chronological_of_handle hx ht)

/-- A report of a run is dated by a verdict, or by the entry there was at first. -/
theorem date_of_mem_reported (hc : (c.ofRule k).Filed k) (hfs : ∀ f ∈ fs, f.rule.key = k)
    (h : c.handleAll? settings fs = some (xs, c')) {b : Instance}
    (hb : b ∈ Handled.reported id xs) :
    (∃ i, c.get? k id = some i ∧ b.lastEvaluation = i.lastEvaluation) ∨
      ∃ v ∈ fs.flatMap (·.verdicts), b.lastEvaluation = v.time := by
  induction fs generalizing c xs with
  | nil =>
      cases h
      cases hb
  | cons f fs ih =>
      obtain ⟨x, swept, xs, hx, hxs, rfl⟩ := handleAll?_cons_eq_some_iff.1 h
      obtain rfl := hfs f List.mem_cons_self
      rw [List.flatMap_cons]
      rcases List.mem_append.1 hb with hb | hb
      · rcases date_of_mem_reports hc hx hb with hold | ⟨v, hv, hdate⟩
        · exact Or.inl hold
        · exact Or.inr ⟨v, List.mem_append_left _ hv, hdate⟩
      rcases ih (filed_handle hc hx) (fun g hg => hfs g (List.mem_cons_of_mem f hg)) hxs hb with
        ⟨i', hi', hdate⟩ | ⟨v, hv, hdate⟩
      · rw [hdate]
        rcases follows_handle hx _ id i' hi' with hold | ⟨-, v, hv, hdate⟩
        · exact Or.inl hold
        · exact Or.inr ⟨v, List.mem_append_left _ hv, hdate⟩
      · exact Or.inr ⟨v, List.mem_append_right _ hv, hdate⟩

/-- **Reports in order.** A run whose verdicts come in order of time reports an instance in
order of its evaluations. -/
theorem inOrder_reported (hc : (c.ofRule k).Filed k) (hfs : ∀ f ∈ fs, f.rule.key = k)
    (ht : c.Chronological k id fs) (h : c.handleAll? settings fs = some (xs, c')) :
    Instance.InOrder (Handled.reported id xs) := by
  induction fs generalizing c xs with
  | nil =>
      cases h
      exact List.Pairwise.nil
  | cons f fs ih =>
      obtain ⟨x, swept, xs, hx, hxs, rfl⟩ := handleAll?_cons_eq_some_iff.1 h
      obtain rfl := hfs f List.mem_cons_self
      have hrest := fun g hg => hfs g (List.mem_cons_of_mem f hg)
      have hlater := ih (filed_handle hc hx) hrest (chronological_of_handle hx ht) hxs
      obtain ⟨hverdicts, hentry⟩ := ht
      rw [List.flatMap_cons] at hverdicts hentry
      obtain ⟨hvs, -, hacross⟩ := List.pairwise_append.1 hverdicts
      have hfirst : Instance.InOrder (x.reports id) :=
        inOrder_reports_of_handle hc hx hvs fun i hi v hv =>
          hentry i hi v (List.mem_append_left _ hv)
      refine List.pairwise_append.2 ⟨hfirst, hlater, fun a ha b hb => ?_⟩
      -- a later report is dated by the last one of this evaluation or by a later verdict
      rcases date_of_mem_reported (filed_handle hc hx) hrest hxs hb with
        ⟨i', hi', hdate⟩ | ⟨v, hv, hdate⟩
      · obtain ⟨i, sentAt, hi, rfl⟩ := exists_of_get?_handle hc hx hi'
        have hlast : (x.reports id).getLast? = some i := by
          cases hlast : (x.reports id).getLast? with
          | none => simp [List.getLast?_eq_none_iff.1 hlast] at ha
          | some last => simpa [hlast] using hi
        have hle := hfirst.le_getLast ha hlast
        rwa [hdate]
      · rw [hdate]
        rcases date_of_mem_reports hc hx ha with ⟨old, hold, hdate⟩ | ⟨u, hu, hdate⟩
        · exact hdate ▸ hentry old hold v (List.mem_append_right _ hv)
        · exact hdate ▸ hacross u hu v hv

/-- **The last alert.** As long as an instance stays, its entry is dated with an alert that
is no older than any alert about it. -/
theorem exists_lastSent (hc : (c.ofRule k).Filed k) (hfs : ∀ f ∈ fs, f.rule.key = k)
    (ht : c.Chronological k id fs) {before between : List Handled}
    (h : c.handleAll? settings fs = some (before ++ x :: between, c'))
    (hkept : ∀ z ∈ between, z.evicts id = false) {a : Instance} (ha : a ∈ x.alerts id) :
    ∃ last, (c'.get? k id).bind (·.sentAt) = some last ∧ a.lastEvaluation ≤ last := by
  have hsome : a ∈ Handled.alerted id (x :: between) := List.mem_append_left _ ha
  have hlast := List.getLast?_eq_some_getLast (List.ne_nil_of_mem hsome)
  have hordered : Instance.InOrder (Handled.alerted id (x :: between)) := by
    have hsent : (Handled.alerted id (before ++ x :: between)).Sublist
        (Handled.reported id (before ++ x :: between)) := by
      rw [alerted_eq_filter h]
      exact List.filter_sublist
    have hall := (inOrder_reported hc hfs ht h).sublist hsent
    unfold Handled.alerted at hall
    rw [List.flatMap_append] at hall
    exact (List.pairwise_append.1 hall).2.1
  have hstays : ∀ z ∈ x :: between, z.evicts id = false := by
    rintro z hz
    rcases List.mem_cons.1 hz with rfl | hz
    · exact evicts_eq_false_of_mem_alerts hc hfs h ha
    · exact hkept z hz
  refine ⟨_, ?_, hordered.le_getLast hsome hlast⟩
  rw [(sentAt_handleAll hc hfs h).2, Handled.lastSent_append, Handled.lastSent_of_kept hstays,
    hlast]
  rfl

end Cache

end Vigil
