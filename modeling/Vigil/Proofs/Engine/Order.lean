import Vigil.Proofs.Engine.Waiting

/-!
# The order of evaluations

A tick spreads its evaluations over one base interval. Where ticks come a base interval
apart, and what was due has gone on by then (`Watched.spaced`), each routine begins its
evaluations in the order of their ticks, and the dates of instances only move forward
(`Watched.begun_in_order`). Rising times of the ticks alone are not enough
(`Watched.rising`). A tick that comes right after another, as when ticks are made up for,
may find an evaluation of the other one still on its way, and overtake it
(`Watched.overtaken`).
-/

namespace Vigil

def Evaluation.Before (e e' : Evaluation) : Prop := e.scheduledAt < e'.scheduledAt

instance : DecidableRel Evaluation.Before := fun e e' =>
  inferInstanceAs (Decidable (e.scheduledAt < e'.scheduledAt))

/-- No instance that is in both was last evaluated later in `c` than in `c'`. -/
def Cache.Onward (c c' : Cache) : Prop :=
  ∀ k id i i', c.get? k id = some i → c'.get? k id = some i' →
    i.lastEvaluation ≤ i'.lastEvaluation

theorem Cache.Onward.refl (c : Cache) : c.Onward c := by
  intro k id i i' hi hi'
  obtain rfl := Option.some.inj (hi.symm.trans hi')
  exact Int.le_refl _

/-- An engine and what has been seen of it. -/
structure Watched where
  system : System
  /-- The time of the last tick, and how long the engine had run then. -/
  ticked : Option (Moment × Nat) := none
  /-- The evaluations that each routine has begun. -/
  begun : Nat → List Evaluation := fun _ => []

namespace Watched

/-- An engine that nothing has happened to. -/
def new (scheduler : SchedulerSettings) (state : StateSettings) (clock : Moment) : Watched :=
  { system := .new scheduler state clock }

/-- The ticks have rising times. -/
def rising (x : Watched) (a : System.Action) : Bool :=
  a.isTimely x.system && match a with
    | .tick time _ => x.ticked.all (·.1 < time)
    | _ => true

/-- The ticks are also a base interval apart, and come after what was due by then. -/
def spaced (x : Watched) (a : System.Action) : Bool :=
  x.rising a && match a with
    | .tick _ _ =>
      x.ticked.all (·.2 + 1000 * x.system.settings.tickSeconds ≤ x.system.shared.uptime) &&
        x.system.dispatches.all (x.system.shared.uptime < ·.dueAt)
    | _ => true

/-- What has been seen once `a` led to `t`. -/
def after (x : Watched) (a : System.Action) (t : System) : Watched where
  system := t
  ticked := match a with
    | .tick time _ => some (time, x.system.shared.uptime)
    | _ => x.ticked
  begun := fun n => x.begun n ++ (System.taken? n x.system t).toList

def step? (allowed : Watched → System.Action → Bool) (x : Watched) (a : System.Action) :
    Option Watched :=
  if allowed x a then (x.system.step? a).map (x.after a) else none

def run? (allowed : Watched → System.Action → Bool) (x : Watched) (as : List System.Action) :
    Option Watched :=
  as.foldlM (step? allowed) x

variable {x y : Watched} {t : System} {a : System.Action}
  {allowed : Watched → System.Action → Bool}

theorem run?_snoc (x : Watched) (as : List System.Action) (a : System.Action) :
    x.run? allowed (as ++ [a]) = (x.run? allowed as).bind (·.step? allowed a) :=
  Desk.foldlM_concat (step? allowed) x as a

theorem step?_eq_some_iff :
    x.step? allowed a = some y ↔
      allowed x a = true ∧ ∃ t, x.system.step? a = some t ∧ x.after a t = y := by
  unfold step?
  rw [Option.ite_none_right_eq_some, Option.map_eq_some_iff]

/-! ## The invariant -/

/-- The time was reached by the last tick. -/
def Past (x : Watched) (time : Moment) : Prop := ∃ p, x.ticked = some p ∧ time ≤ p.1

/-- What has begun and what is ahead is in order, and instances are dated from before what
is ahead of the routine that goes on with their rule. -/
structure InOrder (x : Watched) : Prop where
  tracks : x.system.Tracks
  timely : x.system.Timely
  workers : (x.system.dispatches.map (·.worker)).Nodup
  due : ∀ d ∈ x.system.dispatches, ∃ p, x.ticked = some p ∧
    d.dueAt ≤ p.2 + 1000 * x.system.settings.tickSeconds
  begun : ∀ n, (x.begun n ++ x.system.waiting n).Pairwise Evaluation.Before
  ahead : ∀ n, (x.system.ahead n).Pairwise Evaluation.Before
  past : ∀ n, ∀ e ∈ x.begun n ++ x.system.ahead n, x.Past e.scheduledAt
  own : ∀ n, ∀ e ∈ x.system.ahead n, x.system.key? n = some e.rule.key
  dated : ∀ k id i, x.system.shared.cache.get? k id = some i → x.Past i.lastEvaluation
  fresh : ∀ n, x.system.Goes n → ∀ e ∈ x.system.ahead n, ∀ id i,
    x.system.shared.cache.get? e.rule.key id = some i → i.lastEvaluation < e.scheduledAt

theorem inOrder_new (scheduler : SchedulerSettings) (state : StateSettings) (clock : Moment) :
    (new scheduler state clock).InOrder := by
  have hnone : ∀ k id, (System.new scheduler state clock).shared.cache.get? k id = none :=
    fun _ _ => rfl
  constructor
  case tracks => exact System.tracks_new scheduler state clock
  case timely =>
    intro n w hw
    cases List.mem_of_getElem? hw
  case workers => exact List.nodup_nil
  case due => exact List.forall_mem_nil _
  case begun => exact fun _ => List.Pairwise.nil
  case ahead => exact fun _ => List.Pairwise.nil
  case past => exact fun _ => List.forall_mem_nil _
  case own => exact fun _ => List.forall_mem_nil _
  case dated =>
    intro k id i hi
    cases (hnone k id).symm.trans hi
  case fresh => exact fun _ _ => List.forall_mem_nil _

namespace InOrder

theorem mem_past_ahead (hx : x.InOrder) {n : Nat} {e : Evaluation} (he : e ∈ x.system.ahead n) :
    x.Past e.scheduledAt :=
  hx.past n e (List.mem_append_right _ he)

/-- One routine goes on with the evaluations of a rule. -/
theorem routine_unique (hx : x.InOrder) {n m : Nat} {e e' : Evaluation} (hn : x.system.Goes n)
    (hm : x.system.Goes m) (he : e ∈ x.system.ahead n) (he' : e' ∈ x.system.ahead m)
    (hkey : e.rule.key = e'.rule.key) : n = m := by
  have hfound := hn.find? hx.tracks.sound (hx.own n e he)
  have hfound' := hm.find? hx.tracks.sound (hx.own m e' he')
  rw [hkey, hfound'] at hfound
  exact (Option.some.inj hfound).symm

/-- What is dated anew was first ahead of its routine, so all that was known is older. -/
theorem onward_of_drains (hx : x.InOrder) (hd : x.system.Drains t) :
    x.system.shared.cache.Onward t.shared.cache := by
  intro k id i i' hi hi'
  rcases hd.cache k id i' hi' with ⟨old, hold, hdate⟩ | ⟨n, e, hn, rfl, htime, hsub⟩
  · obtain rfl := Option.some.inj (hi.symm.trans hold)
    exact hdate ▸ Int.le_refl _
  · exact htime ▸ Int.le_of_lt (hx.fresh n hn e (hsub.subset List.mem_cons_self) id i hi)

/-- What is ahead gets less, and what is dated was next. -/
theorem of_drains (hx : x.InOrder) (ht : t.Tracks) (hset : t.settings = x.system.settings)
    (hd : x.system.Drains t) (ha : (x.after a t).ticked = x.ticked) : (x.after a t).InOrder := by
  have hpast : ∀ {time}, x.Past time → (x.after a t).Past time := by
    rintro time ⟨p, hp, hle⟩
    exact ⟨p, ha.trans hp, hle⟩
  have hnext : ∀ {n e}, (e :: t.ahead n).Sublist (x.system.ahead n) → e ∈ x.system.ahead n :=
    fun hsub => hsub.subset List.mem_cons_self
  constructor
  case tracks => exact ht
  case timely => exact hd.timely
  case workers => exact (hd.dispatches.map _).nodup hx.workers
  case due =>
    intro d hmem
    obtain ⟨p, hp, hle⟩ := hx.due d (hd.dispatches.subset hmem)
    exact ⟨p, ha.trans hp, hset ▸ hle⟩
  case begun =>
    intro n
    have hline := (hx.begun n).sublist ((List.Sublist.refl (x.begun n)).append (hd.waiting n))
    rw [← List.append_assoc] at hline
    exact hline
  case ahead => exact fun n => (hx.ahead n).sublist (hd.ahead n)
  case past =>
    intro n e he
    have htaken : ∀ e', e' ∈ (System.taken? n x.system t).toList → e' ∈ x.system.ahead n :=
      fun e' he' => List.mem_append_right _ ((hd.waiting n).subset (List.mem_append_left _ he'))
    rcases List.mem_append.1 he with hbegun | hahead
    · rcases List.mem_append.1 hbegun with hold | hnew
      · exact hpast (hx.past n e (List.mem_append_left _ hold))
      · exact hpast (hx.mem_past_ahead (htaken e hnew))
    · exact hpast (hx.mem_past_ahead ((hd.ahead n).subset hahead))
  case own => exact fun n e he => (hd.key n).trans (hx.own n e ((hd.ahead n).subset he))
  case dated =>
    intro k id i hi
    rcases hd.cache k id i hi with ⟨old, hold, hdate⟩ | ⟨n, e, -, -, htime, hsub⟩
    · exact hpast (hdate ▸ hx.dated k id old hold)
    · exact hpast (htime ▸ hx.mem_past_ahead (hnext hsub))
  case fresh =>
    intro n hgoes e he id i hi
    have hmem := (hd.ahead n).subset he
    rcases hd.cache _ id i hi with ⟨old, hold, hdate⟩ | ⟨m, e₀, hm, hkey, htime, hsub⟩
    · exact hdate ▸ hx.fresh n (hd.goes n hgoes) e hmem id old hold
    · obtain rfl := hx.routine_unique (hd.goes n hgoes) hm hmem (hnext hsub) hkey.symm
      rw [← htime]
      exact List.rel_of_pairwise_cons ((hx.ahead n).sublist hsub) he

/-- A tick after a base interval finds nothing on its way. -/
theorem dispatches_eq_nil (hx : x.InOrder) {time : Moment} {listing : Option RuleSet}
    (h : x.spaced (.tick time listing) = true) : x.system.dispatches = [] := by
  unfold spaced at h
  simp only [Bool.and_eq_true, Option.all_eq_true, List.all_eq_true, decide_eq_true_eq] at h
  obtain ⟨-, hapart, hgone⟩ := h
  refine List.eq_nil_iff_forall_not_mem.2 fun d hd => ?_
  obtain ⟨p, hp, hdue⟩ := hx.due d hd
  have hlate := hapart p hp
  have hearly := hgone d hd
  omega

/-- What a tick sends comes last. -/
theorem pairwise_append_sentTo {s : System} {time : Moment} {ds : List Dispatch}
    (hd : s.Deals time ds t) (n : Nat) {es : List Evaluation} (hes : es.Pairwise Evaluation.Before)
    (hlater : ∀ e ∈ es, e.scheduledAt < time) :
    (es ++ System.sentTo ds n).Pairwise Evaluation.Before := by
  refine List.pairwise_append.2 ⟨hes, hd.pairwise_sentTo n _, fun e he e' he' => ?_⟩
  show e.scheduledAt < e'.scheduledAt
  rw [(hd.scheduledAt_of_mem he').1]
  exact hlater e he

/-- All that is new is later than all that was before. -/
theorem of_deals (hx : x.InOrder) (ht : t.Tracks) (hset : t.settings = x.system.settings)
    {time : Moment} {listing : Option RuleSet} {ds : List Dispatch}
    (ha : x.spaced (.tick time listing) = true) (hd : x.system.Deals time ds t) :
    (x.after (.tick time listing) t).InOrder := by
  have hnone := hx.dispatches_eq_nil ha
  have hlater : ∀ {u}, x.Past u → u < time := by
    rintro u ⟨p, hp, hle⟩
    unfold spaced rising at ha
    simp only [Bool.and_eq_true, Option.all_eq_true, decide_eq_true_eq] at ha
    exact Int.lt_of_le_of_lt hle (ha.1.2 p hp)
  have hpast : ∀ {u}, x.Past u → (x.after (.tick time listing) t).Past u :=
    fun hu => ⟨_, rfl, Int.le_of_lt (hlater hu)⟩
  have hsent : ∀ {n e}, e ∈ System.sentTo ds n → e.scheduledAt = time := fun he =>
    (hd.scheduledAt_of_mem he).1
  have hbegun : ∀ n, (x.after (.tick time listing) t).begun n = x.begun n := by
    intro n
    show x.begun n ++ (System.taken? n x.system t).toList = _
    rw [System.taken?_of_pending_eq (hd.pending n)]
    exact List.append_nil _
  constructor
  case tracks => exact ht
  case timely => exact hd.timely hx.timely
  case workers =>
    show (t.dispatches.map (·.worker)).Nodup
    rw [hd.dispatches, hnone, List.nil_append]
    exact hd.workers
  case due =>
    intro d hmem
    change d ∈ t.dispatches at hmem
    rw [hd.dispatches, hnone, List.nil_append] at hmem
    exact ⟨_, rfl, hset ▸ (hd.sent d hmem).2.2⟩
  case begun =>
    intro n
    show (_ ++ t.waiting n).Pairwise _
    rw [hbegun, hd.waiting_eq, ← List.append_assoc]
    refine pairwise_append_sentTo hd n (hx.begun n) fun e he => hlater (hx.past n e ?_)
    rcases List.mem_append.1 he with he | he
    · exact List.mem_append_left _ he
    · exact List.mem_append_right _ (List.mem_append_right _ he)
  case ahead =>
    intro n
    show (t.ahead n).Pairwise _
    rw [hd.ahead_eq]
    exact pairwise_append_sentTo hd n (hx.ahead n) fun e he => hlater (hx.mem_past_ahead he)
  case past =>
    intro n e he
    change e ∈ _ ++ t.ahead n at he
    rw [hbegun, hd.ahead_eq, ← List.append_assoc] at he
    rcases List.mem_append.1 he with hold | hnew
    · exact hpast (hx.past n e hold)
    · exact ⟨_, rfl, hsent hnew ▸ Int.le_refl _⟩
  case own =>
    intro n e he
    change e ∈ t.ahead n at he
    rw [hd.ahead_eq] at he
    rcases List.mem_append.1 he with hold | hnew
    · exact hd.key n _ (hx.own n e hold)
    · exact (hd.scheduledAt_of_mem hnew).2
  case dated =>
    intro k id i hi
    change t.shared.cache.get? k id = some i at hi
    rw [hd.cache] at hi
    exact hpast (hx.dated k id i hi)
  case fresh =>
    intro n hgoes e he id i hi
    change e ∈ t.ahead n at he
    change t.shared.cache.get? _ id = some i at hi
    rw [hd.ahead_eq] at he
    rw [hd.cache] at hi
    rcases List.mem_append.1 he with hold | hnew
    · rcases hd.goes n hgoes with hn | hn
      · exact hx.fresh n hn e hold id i hi
      -- a routine that was not there had nothing ahead
      · cases hn.symm.trans (hx.own n e hold)
    · rw [hsent hnew]
      exact hlater (hx.dated _ id i hi)

end InOrder

/-! ## Runs -/

theorem isTimely_of_spaced (h : x.spaced a = true) : a.isTimely x.system = true := by
  unfold spaced rising at h
  rw [Bool.and_eq_true, Bool.and_eq_true] at h
  exact h.1.1

/-- **One action in order.** -/
theorem inOrder_step (hx : x.InOrder) (hl : a.IsListed) (h : x.step? spaced a = some y) :
    y.InOrder ∧ x.system.shared.cache.Onward y.system.shared.cache := by
  obtain ⟨ha, t, hstep, rfl⟩ := step?_eq_some_iff.1 h
  have ht := System.tracks_step hx.tracks hl hstep
  have hset := System.settings_step hstep
  by_cases htick : ∃ time listing, a = .tick time listing
  · obtain ⟨time, listing, rfl⟩ := htick
    obtain ⟨ds, hd⟩ := System.deals_of_tick hx.tracks.sound time listing rfl
      (hx.tracks.keyed_getD hl)
    cases hstep
    refine ⟨hx.of_deals ht hset ha hd, ?_⟩
    show Cache.Onward _ (x.system.tick time listing).2.shared.cache
    rw [hd.cache]
    exact .refl _
  · have hother : ∀ time listing, a ≠ .tick time listing := fun time listing heq =>
      htick ⟨time, listing, heq⟩
    have hd := System.drains_step hx.timely hx.tracks.sound hx.workers (isTimely_of_spaced ha)
      hother hstep
    refine ⟨hx.of_drains ht hset hd ?_, hx.onward_of_drains hd⟩
    unfold after
    split
    · rename_i time listing
      exact absurd rfl (hother time listing)
    · rfl

theorem inOrder_of_run {scheduler : SchedulerSettings} {state : StateSettings} {clock : Moment}
    {as : List System.Action} (hl : ∀ a ∈ as, a.IsListed)
    (h : (new scheduler state clock).run? spaced as = some x) : x.InOrder := by
  induction as using List.reverseRecOn generalizing x with
  | nil =>
      cases h
      exact inOrder_new scheduler state clock
  | append_singleton as a ih =>
      rw [run?_snoc] at h
      obtain ⟨u, hu, hstep⟩ := Option.bind_eq_some_iff.1 h
      have hbefore := ih (fun b hb => hl b (List.mem_append_left _ hb)) hu
      exact (inOrder_step hbefore (hl a (List.mem_append_right _ List.mem_cons_self)) hstep).1

/-- **Evaluations in order.** Where ticks are a base interval apart and come after what
was due, a routine begins its evaluations in the order of their ticks, and no action that
follows dates an instance back. -/
theorem begun_in_order {scheduler : SchedulerSettings} {state : StateSettings} {clock : Moment}
    {as : List System.Action} (hl : ∀ a ∈ as, a.IsListed)
    (h : (new scheduler state clock).run? spaced as = some x) :
    (∀ n, (x.begun n).Pairwise Evaluation.Before) ∧
      ∀ a y, a.IsListed → x.step? spaced a = some y →
        x.system.shared.cache.Onward y.system.shared.cache := by
  have hx := inOrder_of_run hl h
  constructor
  · exact fun n => (List.pairwise_append.1 (hx.begun n)).1
  · exact fun a y ha hstep => (inOrder_step hx ha hstep).2

/-- Routine `n` works on its evaluation of `time` until the verdicts are in. -/
def alerting (n : Nat) (time : Moment) : List System.Action :=
  [.worker n .wake, .worker n .look, .worker n (.built (.ok ())),
   .worker n (.evaluated (.ok [{ labels := ∅, status := .alerting, time }]))]

/-- The routine applies the verdicts and tells the notifier. -/
def applying (n : Nat) : List System.Action := [.worker n .proceed, .worker n .delivered]

/-- Two ticks of one rule, a base interval apart. -/
def steady : List System.Action :=
  [.tick .epoch (some (.ofListing [{ uid := "b", intervalSeconds := 10 }] ∅)), .release 0] ++
  alerting 0 .epoch ++ applying 0 ++
  [.elapse 10000, .tick ⟨10 * nanosPerSecond⟩ none, .release 1] ++
  alerting 0 ⟨10 * nanosPerSecond⟩

theorem begun_in_order_steady :
    (∀ a ∈ steady, a.IsListed) ∧ ∃ x y, (new {} {} .epoch).run? spaced steady = some x ∧
      x.step? spaced (.worker 0 .proceed) = some y ∧
      (x.begun 0).map (·.scheduledAt) = [.epoch, ⟨10 * nanosPerSecond⟩] ∧
      (x.begun 0).Pairwise Evaluation.Before ∧
      x.system.shared.cache.Onward y.system.shared.cache := by
  have hl : ∀ a ∈ steady, a.IsListed := by
    simp only [steady, alerting, applying, List.cons_append, List.nil_append, List.forall_mem_cons]
    exact ⟨⟨_, _, rfl⟩, by simp [System.Action.IsListed]⟩
  have hrun : ((new {} {} .epoch).run? spaced steady).bind (fun x =>
      (x.step? spaced (.worker 0 .proceed)).map fun _ => (x.begun 0).map (·.scheduledAt)) =
        some [.epoch, ⟨10 * nanosPerSecond⟩] := by decide +kernel
  obtain ⟨x, hx, h⟩ := Option.bind_eq_some_iff.1 hrun
  obtain ⟨y, hy, hbegun⟩ := Option.map_eq_some_iff.1 h
  obtain ⟨horder, honward⟩ := begun_in_order hl hx
  exact ⟨hl, x, y, hx, hy, hbegun, horder 0, honward (.worker 0 .proceed) y trivial hy⟩

/-! ### Ticks that are made up for -/

/-- An instance of `k` was last evaluated later in `x` than in `y`. -/
def setsBack (k : RuleKey) (x y : Watched) : Bool :=
  (x.system.shared.cache.ofRule k).keys.any fun id =>
    match x.system.shared.cache.get? k id, y.system.shared.cache.get? k id with
    | some i, some i' => i'.lastEvaluation < i.lastEvaluation
    | _, _ => false

theorem not_onward_of_setsBack {k : RuleKey} (h : setsBack k x y = true) :
    ¬ x.system.shared.cache.Onward y.system.shared.cache := by
  obtain ⟨id, -, hid⟩ := List.any_eq_true.1 h
  intro honward
  split at hid
  · rename_i i i' hi hi'
    have hback : i'.lastEvaluation < i.lastEvaluation := of_decide_eq_true hid
    exact Int.not_lt.2 (honward k id i i' hi hi') hback
  · cases hid

/-- The first tick has two rules to spread over ten seconds, and the second follows at
once with one. -/
def overtaking : List System.Action :=
  [.tick .epoch (some (.ofListing
    [{ uid := "a", intervalSeconds := 20 }, { uid := "b", intervalSeconds := 10 }] ∅)),
   .tick ⟨10 * nanosPerSecond⟩ none, .release 2] ++
  alerting 1 ⟨10 * nanosPerSecond⟩ ++ applying 1 ++
  [.elapse 5000, .release 1] ++ alerting 1 .epoch

/-- With ticks of rising times a routine may begin an earlier evaluation after a later
one, and date an instance back. -/
theorem overtaken :
    (∀ a ∈ overtaking, a.IsListed) ∧ ∃ x y, (new {} {} .epoch).run? rising overtaking = some x ∧
      x.step? rising (.worker 1 .proceed) = some y ∧
      ¬ (x.begun 1).Pairwise Evaluation.Before ∧
      ¬ x.system.shared.cache.Onward y.system.shared.cache := by
  have hl : ∀ a ∈ overtaking, a.IsListed := by
    simp only [overtaking, alerting, applying, List.cons_append, List.nil_append,
      List.forall_mem_cons]
    exact ⟨⟨_, _, rfl⟩, by simp [System.Action.IsListed]⟩
  have hrun : ((new {} {} .epoch).run? rising overtaking).bind (fun x =>
      (x.step? rising (.worker 1 .proceed)).map fun y =>
        (decide ((x.begun 1).Pairwise Evaluation.Before), setsBack ⟨1, "b"⟩ x y)) =
          some (false, true) := by decide +kernel
  obtain ⟨x, hx, h⟩ := Option.bind_eq_some_iff.1 hrun
  obtain ⟨y, hy, h⟩ := Option.map_eq_some_iff.1 h
  obtain ⟨horder, hback⟩ := Prod.mk.inj h
  exact ⟨hl, x, y, hx, hy, of_decide_eq_false horder, not_onward_of_setsBack hback⟩

end Watched

end Vigil
