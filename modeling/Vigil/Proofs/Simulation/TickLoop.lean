import Vigil.Proofs.Engine.Cadence
import Vigil.Simulation.Scenario

/-!
# Ticks of a loop

A tick loop remembers which tick is due next. With a move it waits, ends, starts on that
tick or processes it (`TickLoop.Advances`), and every move keeps it on track: its ticks
come one base interval after the other, whatever else happens in between
(`World.Evolves.onTrack`), and the first one is the last multiple of the base before the
loop was started. With what a tick sends this is the cadence of the engine
(`World.cadence`).
-/

namespace Vigil

/-- An engine with other counts. -/
def System.counting (s : System) (metrics : SchedulerMetrics) : System :=
  { s with shared := { s.shared with metrics } }

namespace Simulation

/-! ## Moves of a loop -/

/-- The tick after the next one, if the calendar has it. -/
def TickLoop.following? (l : TickLoop) (base : Int) : Option Moment :=
  if base.natAbs ≤ (1 <<< 63 - 1) / 1000 then l.nextTick.shift? (base * nanosPerSecond) else none

namespace World

/-- Starts on the tick that is due. Without a delay of the source it is processed at
once. -/
def beginTick (w : World) (n : Nat) (l : TickLoop) (next : Moment) : Bool × World :=
  let late := w.now - l.deadline
  let w := w.mapShared fun d => { d with metrics := d.metrics.recordBehind (.ofMillis late) }
  let t := l.nextTick
  let l := { l with nextTick := next, deadline := l.deadline + w.period }
  let (delay, source) := w.source.nextDelay
  let w := { w with source }
  match delay with
  | none => (true, w.finishTick n l t w.now)
  | some ms =>
    let w := w.setTimer (w.now + ms) (.tickLoop n)
    (true, w.setTickLoop n { l with listing := some ⟨t, w.now, w.now + ms⟩ })

variable {w : World} {n : Nat} {l : TickLoop}

theorem moveTickLoop_eq (hl : w.tickLoops[n]? = some l) :
    w.moveTickLoop n =
      if l.outcome.isSome then (false, w)
      else match l.listing with
        | some listing =>
          if listing.dueAt ≤ w.now then (true, w.finishTick n l listing.tick listing.startedAt)
          else (false, w)
        | none =>
          if l.stopRequested then
            (false, (w.act .stopAll).setTickLoop n { l with outcome := some .stopped })
          else if l.deadline ≤ w.now then
            match l.following? w.system.settings.base with
            | none => (false, w.crashTickLoop n l)
            | some next => w.beginTick n l next
          else (false, w.setTimer l.deadline (.tickLoop n)) := by
  -- the function is unfolded as a whole, with the base closed
  obtain ⟨move, hmove⟩ : ∃ move, move = @moveTickLoop := ⟨_, rfl⟩
  rw [← hmove]
  delta moveTickLoop at hmove
  subst hmove
  obtain ⟨base, hbase⟩ : ∃ base, base = w.system.settings.base := ⟨_, rfl⟩
  beta_reduce
  rw [← hbase, hl]
  rfl

/-! ## What a move does to the record of the loop -/

/-- The tick that loop `n` processes with its next move. If its listing takes time that
is when the listing is there, and else at the start of the period. -/
def tickOf? (w : World) (n : Nat) : Option Moment :=
  match w.tickLoops[n]? with
  | none => none
  | some l =>
    if l.outcome.isSome then none
    else match l.listing with
      | some listing => if listing.dueAt ≤ w.now then some listing.tick else none
      | none =>
        if l.stopRequested then none
        else if l.deadline ≤ w.now then
          match l.following? w.system.settings.base with
          | none => none
          | some _ => if w.source.delays.isEmpty then some l.nextTick else none
        else none

end World

/-- One move of a loop, with the tick that it processes. -/
inductive TickLoop.Advances (base : Int) (l : TickLoop) : Option Moment → TickLoop → Prop where
  | waits : Advances base l none l
  | ends (outcome : LoopEnd) : Advances base l none { l with outcome := some outcome }
  | begins {next : Moment} {listing : Listing} {deadline : Nat} (hidle : l.listing = none)
      (hnext : l.following? base = some next) (htick : listing.tick = l.nextTick) :
      Advances base l none { l with nextTick := next, deadline, listing := some listing }
  | finishes {listing : Listing} {workers dispatches : List Nat}
      (hlisting : l.listing = some listing) :
      Advances base l (some listing.tick) { l with listing := none, workers, dispatches }
  | processes {next : Moment} {deadline : Nat} {workers dispatches : List Nat}
      (hidle : l.listing = none) (hnext : l.following? base = some next) :
      Advances base l (some l.nextTick)
        { l with nextTick := next, deadline, listing := none, workers, dispatches }

namespace World

variable {w : World} {n : Nat} {l : TickLoop}

theorem setDispatchTimers_eq (w : World) (first : Nat) :
    w.setDispatchTimers first = { w with timers := (w.setDispatchTimers first).timers } := by
  unfold setDispatchTimers
  generalize w.system.dispatches.filter _ = ds
  induction ds generalizing w with
  | nil => rfl
  | cons d ds ih =>
      rw [List.foldl_cons]
      exact ih (w.setTimer d.dueAt (.dispatch d.number))

theorem tick_snd_eq (w : World) (t : Moment) :
    (w.tick t).2 = { w with
      system := (w.system.tick t w.source.listing?).2
      timers := (w.tick t).2.timers } :=
  setDispatchTimers_eq (w.act (.tick t w.source.listing?)) w.system.dispatched

theorem finishTick_eq (w : World) (n : Nat) (l : TickLoop) (t : Moment) (startedAt : Nat) :
    ∃ metrics timers workers dispatches, w.finishTick n l t startedAt = { w with
      system := (w.system.tick t w.source.listing?).2.counting metrics
      timers := timers
      tickLoops := w.tickLoops.set n { l with listing := none, workers, dispatches } } := by
  unfold finishTick
  dsimp only
  rw [tick_snd_eq]
  exact ⟨_, _, _, _, rfl⟩

/-- `w'` comes from `w` by this tick, with the listing that the source has, or without a
tick. -/
def Processed (w : World) : Option Moment → World → Prop
  | some t, w' => ∃ before after,
    w'.system = ((w.system.counting before).tick t w.source.listing?).2.counting after
  | none, w' => w'.system.rules = w.system.rules ∧ w'.system.dispatched = w.system.dispatched ∧
    w'.system.settings = w.system.settings

theorem processed_finishTick (w : World) (n : Nat) (l : TickLoop) (t : Moment) (startedAt : Nat) :
    w.Processed (some t) (w.finishTick n l t startedAt) := by
  obtain ⟨metrics, timers, workers, dispatches, h⟩ := w.finishTick_eq n l t startedAt
  refine ⟨w.system.shared.metrics, metrics, ?_⟩
  rw [h]
  rfl

theorem beginTick_of_prompt (hprompt : w.source.delays = []) (n : Nat) (l : TickLoop)
    (next : Moment) :
    ∃ before after timers deadline workers dispatches, (w.beginTick n l next).2 = { w with
      system := ((w.system.counting before).tick l.nextTick w.source.listing?).2.counting after
      timers := timers
      tickLoops := w.tickLoops.set n
        { l with nextTick := next, deadline, listing := none, workers, dispatches } } := by
  have hdelay : w.source.nextDelay = (none, w.source) := by
    unfold Source.nextDelay
    rw [hprompt]
  unfold beginTick
  dsimp only [mapShared]
  rw [hdelay]
  let before := w.system.shared.metrics.recordBehind (.ofMillis (w.now - l.deadline))
  obtain ⟨after, timers, workers, dispatches, h⟩ := finishTick_eq
    { w with system := w.system.counting before } n
    { l with nextTick := next, deadline := l.deadline + w.period } l.nextTick w.now
  exact ⟨before, after, timers, _, workers, dispatches, h⟩

theorem beginTick_of_delay {ms : Nat} {rest : List Nat} (hdelay : w.source.delays = ms :: rest)
    (n : Nat) (l : TickLoop) (next : Moment) :
    ∃ before timers deadline listing, listing.tick = l.nextTick ∧
      (w.beginTick n l next).2 = { w with
        system := w.system.counting before
        source := { w.source with delays := rest }
        timers := timers
        tickLoops := w.tickLoops.set n
          { l with nextTick := next, deadline, listing := some listing } } := by
  have hsource : w.source.nextDelay = (some ms, { w.source with delays := rest }) := by
    unfold Source.nextDelay
    rw [hdelay]
  unfold beginTick
  dsimp only [mapShared]
  rw [hsource]
  exact ⟨_, _, _, ⟨l.nextTick, w.now, w.now + ms⟩, rfl, rfl⟩

theorem moveTickLoop_of_ended (hl : w.tickLoops[n]? = some l) (ho : l.outcome.isSome = true) :
    w.moveTickLoop n = (false, w) ∧ w.tickOf? n = none := by
  unfold tickOf?
  rw [moveTickLoop_eq hl, if_pos ho, hl]
  exact ⟨rfl, if_pos ho⟩

/-- **A move of a loop.** It touches its own record, in step with the tick that it
processes. -/
theorem moveTickLoop_spec (hl : w.tickLoops[n]? = some l) (ho : l.outcome = none) {base : Int}
    (hbase : w.system.settings.base = base) :
    ∃ l', (w.moveTickLoop n).2.tickLoops = w.tickLoops.set n l' ∧
      l.Advances base (w.tickOf? n) l' ∧ w.Processed (w.tickOf? n) (w.moveTickLoop n).2 := by
  have hkept : w.tickLoops = w.tickLoops.set n l := by
    obtain ⟨hn, rfl⟩ := List.getElem?_eq_some_iff.1 hl
    exact (List.set_getElem_self hn).symm
  have hrunning : ¬ l.outcome.isSome = true := by
    rw [ho]
    exact Bool.false_ne_true
  unfold tickOf?
  rw [moveTickLoop_eq hl, hl, if_neg hrunning, hbase]
  dsimp only
  rw [if_neg hrunning]
  cases hlisting : l.listing with
  | some listing =>
      dsimp only
      by_cases hdue : listing.dueAt ≤ w.now
      · rw [if_pos hdue, if_pos hdue]
        obtain ⟨metrics, timers, workers, dispatches, h⟩ :=
          w.finishTick_eq n l listing.tick listing.startedAt
        refine ⟨_, by rw [h], .finishes hlisting, ?_⟩
        exact processed_finishTick w n l listing.tick listing.startedAt
      · rw [if_neg hdue, if_neg hdue]
        exact ⟨l, hkept, .waits, rfl, rfl, rfl⟩
  | none =>
      dsimp only
      by_cases hstop : l.stopRequested = true
      · have hends : l.Advances base none { l with outcome := some .stopped } := .ends .stopped
        rw [hlisting] at hends
        rw [if_pos hstop, if_pos hstop]
        exact ⟨_, rfl, hends, rfl, rfl, rfl⟩
      rw [if_neg hstop, if_neg hstop]
      by_cases hdeadline : l.deadline ≤ w.now
      · rw [if_pos hdeadline, if_pos hdeadline]
        cases hnext : l.following? base with
        | none => exact ⟨_, rfl, .ends .crashed, rfl, rfl, rfl⟩
        | some next =>
            dsimp only
            cases hdelays : w.source.delays with
            | nil =>
                obtain ⟨before, after, timers, deadline, workers, dispatches, h⟩ :=
                  beginTick_of_prompt hdelays n l next
                rw [h]
                exact ⟨_, rfl, .processes hlisting hnext, before, after, rfl⟩
            | cons ms rest =>
                obtain ⟨before, timers, deadline, listing, htick, h⟩ :=
                  beginTick_of_delay hdelays n l next
                rw [h]
                exact ⟨_, rfl, .begins hlisting hnext htick, rfl, rfl, rfl⟩
      · rw [if_neg hdeadline, if_neg hdeadline]
        exact ⟨l, hkept, .waits, rfl, rfl, rfl⟩

/-- A move processes the tick that it is said to. -/
theorem processed_moveTickLoop (w : World) (n : Nat) :
    w.Processed (w.tickOf? n) (w.moveTickLoop n).2 := by
  cases hl : w.tickLoops[n]? with
  | none =>
      unfold tickOf? moveTickLoop
      rw [hl]
      exact ⟨rfl, rfl, rfl⟩
  | some l =>
      by_cases ho : l.outcome = none
      · obtain ⟨-, -, -, h⟩ := moveTickLoop_spec hl ho rfl
        exact h
      · obtain ⟨hmove, htick⟩ := moveTickLoop_of_ended hl (Option.isSome_iff_ne_none.2 ho)
        rw [hmove, htick]
        exact ⟨rfl, rfl, rfl⟩

end World

/-! ## Where a loop stands -/

/-- The time of the tick number `k` of a loop. -/
def turn (first period : Int) (k : Nat) : Int := first + k * period

theorem turn_add_period (first period : Int) (k : Nat) :
    turn first period k + period = turn first period (k + 1) := by
  unfold turn
  rw [Int.natCast_add, Int.add_mul, Int.natCast_one, Int.one_mul, Int.add_assoc]

/-- After `k` ticks the loop stands before the next one or waits for its listing. -/
def TickLoop.OnTrack (first period : Int) (k : Nat) (l : TickLoop) : Prop :=
  match l.listing with
  | none => l.nextTick.nanos = turn first period k
  | some listing => listing.tick.nanos = turn first period k ∧
    l.nextTick.nanos = turn first period (k + 1)

theorem TickLoop.nanos_following {l : TickLoop} {base : Int} {next : Moment}
    (h : l.following? base = some next) :
    next.nanos = l.nextTick.nanos + base * nanosPerSecond := by
  unfold following? at h
  split at h
  · exact (Moment.shift?_eq_some_iff.1 h).1
  · cases h

/-- A move keeps the loop on track, and the tick it processes is the one in turn. -/
theorem TickLoop.Advances.onTrack {base first : Int} {k : Nat} {l l' : TickLoop}
    {t : Option Moment} (h : l.Advances base t l')
    (hl : l.OnTrack first (base * nanosPerSecond) k) :
    (∀ u ∈ t, u.nanos = turn first (base * nanosPerSecond) k) ∧
      l'.OnTrack first (base * nanosPerSecond) (k + t.toList.length) := by
  have hnothing : ∀ u ∈ (none : Option Moment), u.nanos = turn first (base * nanosPerSecond) k :=
    fun _ hu => absurd hu (Option.not_mem_none _)
  cases h with
  | waits => exact ⟨hnothing, hl⟩
  | ends outcome => exact ⟨hnothing, hl⟩
  | begins hidle hnext htick =>
      unfold OnTrack at hl ⊢
      rw [hidle] at hl
      refine ⟨hnothing, htick ▸ hl, ?_⟩
      rw [nanos_following hnext, hl]
      exact turn_add_period first _ k
  | finishes hlisting =>
      unfold OnTrack at hl ⊢
      rw [hlisting] at hl
      refine ⟨fun u hu => ?_, hl.2⟩
      rw [← Option.mem_some_iff.1 hu]
      exact hl.1
  | processes hidle hnext =>
      unfold OnTrack at hl ⊢
      rw [hidle] at hl
      refine ⟨fun u hu => ?_, ?_⟩
      · rw [← Option.mem_some_iff.1 hu]
        exact hl
      · show _ = turn first _ (k + 1)
        rw [nanos_following hnext, hl]
        exact turn_add_period first _ k

namespace World

theorem Processed.settings {w w' : World} {t : Option Moment} (h : w.Processed t w') :
    w'.system.settings = w.system.settings := by
  cases t with
  | none => exact h.2.2
  | some t =>
      obtain ⟨before, after, h⟩ := h
      obtain ⟨metrics, hshared⟩ := (w.system.counting before).shared_tick t w.source.listing?
      rw [h]
      show ((w.system.counting before).tick t w.source.listing?).2.shared.scheduler = _
      rw [hshared]
      rfl

/-- Between two moves of loop `n` anything may happen to a world, but the loop stays where
it is and the settings do not change. The loop may be told to stop. -/
structure Spares (n : Nat) (w w' : World) : Prop where
  settings : w'.system.settings = w.system.settings
  loop : ∀ l, w.tickLoops[n]? = some l →
    ∃ stopRequested, w'.tickLoops[n]? = some { l with stopRequested }

/-- `u` comes from `w`, and loop `n` has processed these ticks on the way. -/
inductive Evolves (n : Nat) (w : World) : List Moment → World → Prop where
  | refl : Evolves n w [] w
  | move {ts : List Moment} {u : World} (h : Evolves n w ts u) :
      Evolves n w (ts ++ (u.tickOf? n).toList) (u.moveTickLoop n).2
  | spare {ts : List Moment} {u v : World} (h : Evolves n w ts u) (hv : Spares n u v) :
      Evolves n w ts v

theorem getElem?_append_toList {ts : List α} {last : Option α} {k : Nat} {t : α}
    (h : (ts ++ last.toList)[k]? = some t) : ts[k]? = some t ∨ k = ts.length ∧ last = some t := by
  by_cases hk : k < ts.length
  · rw [List.getElem?_append_left hk] at h
    exact Or.inl h
  · rw [List.getElem?_append_right (Nat.le_of_not_lt hk)] at h
    cases last with
    | none => cases h
    | some u =>
        obtain ⟨hzero, hu⟩ := List.getElem?_eq_some_iff.1 h
        rw [Option.toList_some, List.length_singleton] at hzero
        exact Or.inr ⟨by omega, by simpa using hu⟩

/-- The ticks of a loop that is on track come one period after the other. -/
theorem Evolves.onTrack {w u : World} {n : Nat} {ts : List Moment} (h : Evolves n w ts u)
    {l : TickLoop} (hl : w.tickLoops[n]? = some l) {first period : Int}
    (hperiod : w.system.settings.base * nanosPerSecond = period)
    (hfirst : l.outcome = none → l.OnTrack first period 0) :
    (∀ (k : Nat) (t : Moment), ts[k]? = some t → t.nanos = turn first period k) ∧
      u.system.settings = w.system.settings ∧
      ∃ l', u.tickLoops[n]? = some l' ∧ (l'.outcome = none → l'.OnTrack first period ts.length) := by
  induction h with
  | refl => exact ⟨fun k t h => absurd h (by simp), rfl, l, hl, hfirst⟩
  | @move ts u h ih =>
      obtain ⟨hts, hsettings, l', hl', htrack⟩ := ih
      by_cases ho : l'.outcome = none
      · obtain ⟨l'', hl'', hadvance, hprocessed⟩ :=
          moveTickLoop_spec hl' ho (congrArg SchedulerSettings.base hsettings)
        have hstands := htrack ho
        rw [← hperiod] at hstands
        obtain ⟨htick, htrack'⟩ := hadvance.onTrack hstands
        rw [hperiod] at htick htrack'
        have hn : n < u.tickLoops.length := (List.getElem?_eq_some_iff.1 hl').1
        refine ⟨fun k t hk => ?_, hprocessed.settings.trans hsettings, l'', ?_, fun _ => ?_⟩
        · rcases getElem?_append_toList hk with hk | ⟨rfl, hlast⟩
          · exact hts k t hk
          · exact htick t hlast
        · rw [hl'', List.getElem?_set_self hn]
        · rw [List.length_append]
          exact htrack'
      · obtain ⟨hmove, htick⟩ := moveTickLoop_of_ended hl' (Option.isSome_iff_ne_none.2 ho)
        rw [hmove, htick]
        refine ⟨?_, hsettings, l', hl', fun h => absurd h ho⟩
        simpa using hts
  | spare h hv ih =>
      obtain ⟨hts, hsettings, l', hl', htrack⟩ := ih
      obtain ⟨stop, hv'⟩ := hv.loop l' hl'
      exact ⟨hts, hv.settings.trans hsettings, _, hv', htrack⟩

/-! ## Cadence -/

variable {c : Config}

theorem nanos_of_ofSeconds? {n : Int} {t : Moment} (h : Moment.ofSeconds? n = some t) :
    t.nanos = n * nanosPerSecond := by
  unfold Moment.ofSeconds? Moment.ofNanos? at h
  split at h
  · rw [← Option.some.inj h]
  · cases h

/-- A loop starts at the last multiple of the base. -/
theorem onTrack_startTicking (hc : c.Paced) {w : World} (hw : w.system.settings = c.scheduler)
    {period : Int} (hperiod : nanosPerSecond * c.scheduler.baseIntervalSeconds = period) :
    ∃ l, w.startTicking.tickLoops[w.tickLoops.length]? = some l ∧ (l.outcome = none →
      l.OnTrack (w.system.shared.clock.nanos / period * period) period 0) := by
  have hlast : ∀ l : TickLoop, (w.tickLoops ++ [l])[w.tickLoops.length]? = some l := by
    intro l
    rw [List.getElem?_append_right (Nat.le_refl _), Nat.sub_self]
    rfl
  refine ⟨_, hlast _, ?_⟩
  have hbase : w.system.settings.base = c.scheduler.baseIntervalSeconds := by
    rw [hw, hc.base_eq]
  rw [hbase]
  split
  · rename_i t ht
    intro _
    show t.nanos = turn _ period 0
    have hnumber := Cadence.tickNumber_eq w.system.shared.clock c.scheduler.baseIntervalSeconds
    rw [hperiod] at hnumber
    rw [nanos_of_ofSeconds? ht, Int.emod_def, Int.sub_sub_self, ← hnumber, ← hperiod]
    unfold turn Cadence.tickNumber
    rw [Int.natCast_zero, Int.zero_mul, Int.add_zero, Int.mul_comm _ (nanosPerSecond : Int),
      ← Int.mul_assoc, Int.mul_comm _ (_ / _)]
  · exact nofun

/-- The evaluations that a tick of a loop sends. A rule that can be scheduled has one if its
interval divides the time. -/
theorem dispatches_moveTickLoop (hc : c.Paced) {u : World} {n : Nat} {t : Moment}
    (ht : u.tickOf? n = some t) {m : Int}
    (hm : t.nanos = m * (nanosPerSecond * c.scheduler.baseIntervalSeconds))
    (hu : u.system.settings = c.scheduler) {rules : RuleSet}
    (hrules : u.source.listing?.getD u.system.rules = rules) (hk : rules.Keyed) :
    ∃ ds, (u.moveTickLoop n).2.system.dispatches = u.system.dispatches ++ ds ∧
      ∀ r, rules.rules.find? r.key = some r → c.scheduler.Fits r →
        (r.key ∈ ds.map (·.evaluation.rule.key) ↔
          nanosPerSecond * c.scheduler.effective r ∣ t.nanos) := by
  have hprocessed := u.processed_moveTickLoop n
  rw [ht] at hprocessed
  obtain ⟨before, after, hsystem⟩ := hprocessed
  have htick := System.tick_cadenced (s := u.system.counting before) hc hu t u.source.listing?
    hrules hk
  obtain ⟨ds, hds, hkeys, -⟩ := htick.dispatched
  refine ⟨ds, ?_, fun r hr hfits => ?_⟩
  · rw [hsystem]
    exact hds
  · rw [hkeys, htick.scheduled_iff, ← SchedulerSettings.schedules_iff_dvd hc hfits hm]
    constructor
    · rintro ⟨r', hr', hschedules⟩
      obtain rfl := Option.some.inj (hr.symm.trans hr')
      exact hschedules
    · intro hschedules
      exact ⟨r, hr, hschedules⟩

/-- **Cadence.** With valid settings a tick sends the evaluations of the rules that are due
and of no others. A loop ticks at the last multiple of the base before it was started and
then once in every base interval. So while a rule can be scheduled, it is dispatched on
those ticks that are multiples of its interval, and a rule whose interval is no longer than
a positive minimum can always be scheduled. -/
theorem cadence (hc : c.Paced) :
    (∀ (s : System) (t : Moment) (listing : Option RuleSet) (rules : RuleSet),
      s.settings = c.scheduler → listing.getD s.rules = rules → rules.Keyed →
        s.Cadenced c.scheduler rules t (s.tick t listing).1 (s.tick t listing).2) ∧
    (∀ (w u : World) (n : Nat) (ts : List Moment) (period : Int),
      w.system.settings = c.scheduler → n = w.tickLoops.length →
      period = nanosPerSecond * c.scheduler.baseIntervalSeconds →
      Evolves n w.startTicking ts u →
        (∀ (k : Nat) (t : Moment), ts[k]? = some t →
          t.nanos = w.system.shared.clock.nanos / period * period + k * period) ∧
        ∀ (t : Moment) (rules : RuleSet), u.tickOf? n = some t →
          u.source.listing?.getD u.system.rules = rules → rules.Keyed →
          ∃ ds, (u.moveTickLoop n).2.system.dispatches = u.system.dispatches ++ ds ∧
            ∀ r, rules.rules.find? r.key = some r → c.scheduler.Fits r →
              (r.key ∈ ds.map (·.evaluation.rule.key) ↔
                nanosPerSecond * c.scheduler.effective r ∣ t.nanos)) ∧
    ∀ r : Rule, 0 < c.scheduler.minIntervalSeconds →
      r.intervalSeconds ≤ c.scheduler.minIntervalSeconds → c.scheduler.Fits r := by
  refine ⟨?_, ?_, ?_⟩
  · intro s t listing rules hs hrules hk
    exact System.tick_cadenced hc hs t listing hrules hk
  · rintro w u n ts period hw rfl rfl hevolves
    obtain ⟨l, hl, hfirst⟩ := onTrack_startTicking hc hw rfl
    have hperiod : w.startTicking.system.settings.base * nanosPerSecond =
        nanosPerSecond * c.scheduler.baseIntervalSeconds := by
      show w.system.settings.base * nanosPerSecond = _
      rw [hw, hc.base_eq, Int.mul_comm]
    refine ⟨(hevolves.onTrack hl hperiod hfirst).1, fun t rules ht hrules hk => ?_⟩
    -- the next tick is the last one of the run that goes on with this move
    have hmoved := hevolves.move.onTrack hl hperiod hfirst
    have hnext : (ts ++ (u.tickOf? w.tickLoops.length).toList)[ts.length]? = some t := by
      rw [ht, List.getElem?_append_right (Nat.le_refl _), Nat.sub_self]
      rfl
    have hturn := hmoved.1 ts.length t hnext
    unfold turn at hturn
    rw [← Int.add_mul] at hturn
    exact dispatches_moveTickLoop hc ht hturn
      ((hevolves.onTrack hl hperiod hfirst).2.1.trans hw) hrules hk
  · intro r hmin hr
    exact SchedulerSettings.fits_of_le_min hc hmin hr

/-- A world five seconds before 1970. -/
def eve : World := { system := System.new {} {} ⟨-5 * nanosPerSecond⟩ }

/-- With the standard settings the first tick of a loop that starts then is ten seconds
before 1970, and a tick twenty seconds before 1970 has the evaluation of a rule that runs
every twenty seconds. -/
theorem cadence_eve :
    Config.Paced {} ∧
    (∃ t, eve.startTicking.tickOf? 0 = some t ∧ t.nanos = -10 * nanosPerSecond) ∧
    (⟨1, "even"⟩ : RuleKey) ∈ (eve.system.tick ⟨-20 * nanosPerSecond⟩
      (some (.ofListing [{ uid := "even", intervalSeconds := 20 }] ∅))).1.scheduled.map (·.key) ∧
    SchedulerSettings.Fits {} { intervalSeconds := 3 } := by
  have hc : Config.Paced {} := ⟨rfl, by decide, by decide⟩
  obtain ⟨htick, hloop, hmin⟩ := cadence hc
  refine ⟨hc, ?_, ?_, hmin _ (by decide) (by decide)⟩
  · obtain ⟨t, ht⟩ : ∃ t, eve.startTicking.tickOf? 0 = some t :=
      Option.isSome_iff_exists.1 (by decide +kernel)
    have hevolves : Evolves 0 eve.startTicking [t] (eve.startTicking.moveTickLoop 0).2 := by
      have hmove : Evolves 0 eve.startTicking _ _ := .move .refl
      rw [ht] at hmove
      exact hmove
    refine ⟨t, ht, ?_⟩
    rw [(hloop eve _ 0 [t] _ rfl rfl rfl hevolves).1 0 t rfl]
    decide
  · refine ((htick eve.system _ (some _) _ rfl rfl (RuleSet.keyed_ofListing _ _)).scheduled_iff _).2
      ⟨_, rfl, ?_⟩
    refine ⟨⟨by decide, by decide⟩, ?_⟩
    decide

end World

end Simulation

end Vigil
