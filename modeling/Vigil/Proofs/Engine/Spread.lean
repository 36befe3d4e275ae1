import Vigil.Proofs.Engine.Tick
import Vigil.Proofs.Time.Words

/-!
# The spread of a tick

The evaluations of one tick are spread over it in equal steps: the first is sent at once, and the
last one before the base interval is over (`Spread`). The step and its multiples are computed in
machine words, with the number of evaluations cut to 32 bits. As long as there are fewer than
2^32 of them nothing is divided by zero and no word overflows (`SpanWords.exists_spread?`), so
the delays that a tick reports are the exact ones (`System.spread_of_tick`).
-/

namespace Vigil

/-- The delays `ds` are the multiples of one step, the share of each in `base`. -/
structure Spread (base : Span) (ds : List Span) : Prop where
  multiples : ds = (List.range ds.length).map fun i => ⟨i * (base.nanos / ds.length)⟩
  starts : ds.head? = some .zero
  nondecreasing : ds.Pairwise (·.nanos ≤ ·.nanos)
  inside : ∀ d ∈ ds, d.nanos < base.nanos

namespace Cadence

/-- The delays of `n` evaluations. -/
def delays (base : Span) (n : Nat) : List Span := (List.range n).map (delay base n)

theorem length_delays (base : Span) (n : Nat) : (delays base n).length = n := by
  simp [delays]

theorem delay_lt {base : Span} {n i : Nat} (hbase : 0 < base.nanos) (hi : i < n) :
    (delay base n i).nanos < base.nanos := by
  show base.nanos / n * i < base.nanos
  rcases Nat.eq_zero_or_pos (base.nanos / n) with hstep | hstep
  · rw [hstep, Nat.zero_mul]
    exact hbase
  · calc base.nanos / n * i < base.nanos / n * n := Nat.mul_lt_mul_of_pos_left hi hstep
      _ ≤ base.nanos := Nat.div_mul_le_self _ _

theorem spread_delays {base : Span} {n : Nat} (hbase : 0 < base.nanos) (hn : 0 < n) :
    Spread base (delays base n) where
  multiples := by
    rw [length_delays]
    refine List.map_congr_left fun i _ => ?_
    exact congrArg Span.mk (Nat.mul_comm _ _)
  starts := by
    obtain ⟨m, rfl⟩ := Nat.exists_eq_add_of_lt hn
    simp [delays, delay, List.range_succ_eq_map, Span.zero]
  nondecreasing := by
    rw [delays, List.pairwise_map]
    refine List.pairwise_le_range.imp ?_
    intro i j hij
    exact Nat.mul_le_mul_left _ hij
  inside := by
    intro d hd
    obtain ⟨i, hi, rfl⟩ := List.mem_map.1 hd
    exact delay_lt hbase (List.mem_range.1 hi)

end Cadence

namespace SpanWords

/-- The delays of the `n` evaluations of a tick in words: one step, and as many steps for each
evaluation as there are before it. Both numbers are cut to a word of 32 bits. -/
def spread? (base : SpanWords) (n : Nat) : Option (List SpanWords) := do
  let step ← base.divide? (.ofNat n)
  (List.range n).mapM fun i => step.times? (.ofNat i)

/-- Where every delay has its words, the list of them does. -/
theorem exists_mapM {f : Nat → Option SpanWords} {g : Nat → Span} {l : List Nat}
    (h : ∀ i ∈ l, ∃ w, f i = some w ∧ w.toSpan = g i) :
    ∃ ws, l.mapM f = some ws ∧ ws.map toSpan = l.map g := by
  induction l with
  | nil => exact ⟨[], rfl, rfl⟩
  | cons i l ih =>
      obtain ⟨w, hw, hspan⟩ := h i List.mem_cons_self
      obtain ⟨ws, hws, hspans⟩ := ih fun j hj => h j (List.mem_cons_of_mem _ hj)
      refine ⟨w :: ws, ?_, ?_⟩
      · rw [List.mapM_cons, hw, hws]
        rfl
      · rw [List.map_cons, List.map_cons, hspan, hspans]

/-- Fewer than 2^32 evaluations, and at least one, have their exact delays in words. -/
theorem exists_spread? (base : SpanWords) {n : Nat} (hn : 0 < n) (hlt : n < UInt32.size) :
    ∃ ws, base.spread? n = some ws ∧ ws.map toSpan = Cadence.delays base.toSpan n := by
  have hcount : ∀ i ≤ n, (UInt32.ofNat i).toNat = i := fun i hi =>
    UInt32.toNat_ofNat_of_lt' (Nat.lt_of_le_of_lt hi hlt)
  have hne : UInt32.ofNat n ≠ 0 := by
    intro h
    have hzero := hcount n (Nat.le_refl n)
    rw [h] at hzero
    exact absurd hzero (Nat.ne_of_lt hn)
  obtain ⟨step, hstep, hstepSpan⟩ := base.exists_divide? hne
  rw [hcount n (Nat.le_refl n)] at hstepSpan
  have hwords : ∀ i ∈ List.range n,
      ∃ w, step.times? (.ofNat i) = some w ∧ w.toSpan = Cadence.delay base.toSpan n i := by
    intro i hi
    have hle : i ≤ n := Nat.le_of_lt (List.mem_range.1 hi)
    have hfits : base.toSpan.nanos / n * i < Span.limit :=
      calc base.toSpan.nanos / n * i ≤ base.toSpan.nanos / n * n := Nat.mul_le_mul_left _ hle
        _ ≤ base.toSpan.nanos := Nat.div_mul_le_self _ _
        _ < Span.limit := base.toSpan_lt_limit
    apply Option.map_eq_some_iff.1
    rw [map_times?, hcount i hle, hstepSpan]
    exact if_pos hfits
  obtain ⟨ws, hws, hspans⟩ := exists_mapM hwords
  refine ⟨ws, ?_, hspans⟩
  rw [spread?, hstep]
  exact hws

-- 2^32 evaluations are cut to zero of them, and there is no step
example (base : SpanWords) : base.spread? (1 <<< 32) = none := rfl

end SpanWords

/-- A number of 64 bits is the same word when it goes through a signed one. -/
theorem toNat_ofInt_signedSeconds {n : Nat} (h : n < 2 ^ 64) :
    (UInt64.ofInt (signedSeconds n)).toNat = n := by
  have hwidth : ((1 <<< 64 : Nat) : Int) = 2 ^ 64 := by decide
  have hmod : signedSeconds n % (1 <<< 64 : Nat) = n % (1 <<< 64 : Nat) := Int.bmod_emod
  rw [hwidth] at hmod
  generalize signedSeconds n = signed at hmod
  have hwrap : (signed % 2 ^ 64).toNat = n := by omega
  rw [UInt64.ofInt, hwrap]
  exact UInt64.toNat_ofNat_of_lt' h

namespace SchedulerSettings

/-- The base interval in words. Its seconds are a signed number in between. -/
def baseWords (settings : SchedulerSettings) : SpanWords :=
  .ofSeconds (UInt64.ofInt settings.base)

theorem toSpan_baseWords {settings : SchedulerSettings}
    (h : settings.baseIntervalSeconds < 1 <<< 64) :
    settings.baseWords.toSpan = .ofSeconds settings.tickSeconds := by
  have hticks : settings.tickSeconds < 2 ^ 64 := by
    unfold tickSeconds
    omega
  rw [baseWords, SpanWords.toSpan_ofSeconds, base, toNat_ofInt_signedSeconds hticks]

end SchedulerSettings

namespace System

theorem snd_due (settings : SchedulerSettings) (rules : RuleSet) (t : Moment) :
    (due settings rules t).map Prod.snd =
      Cadence.delays (.ofSeconds settings.tickSeconds) (due settings rules t).length := by
  unfold due
  dsimp only
  generalize rules.all.filterMap (evaluation? settings rules.folders t) = ready
  rw [List.map_map, List.length_map, List.length_zipIdx, Cadence.delays, List.range_eq_range',
    ← List.zipIdx_map_snd 0 ready, List.map_map]
  rfl

theorem delays_tick (s : System) (t : Moment) (listing : Option RuleSet) :
    (s.tick t listing).1.scheduled.map (·.delay) =
      Cadence.delays (.ofSeconds s.settings.tickSeconds)
        (s.tick t listing).1.scheduled.length := by
  have hscheduled : (s.tick t listing).1.scheduled =
      (due s.settings (listing.getD s.rules) t).map
        fun p => ⟨p.1.rule.key, p.1.rule.version, p.2⟩ := rfl
  rw [hscheduled, List.length_map, List.map_map, ← snd_due]
  rfl

/-- **The spread of a tick.** However many evaluations a tick sends, below 2^32, the words for
their delays can all be computed and are the delays it reports: the multiples of the base
interval divided by their number. The first is none, none is shorter than the one before it, and
all of them are shorter than the base interval. -/
theorem spread_of_tick (s : System) (t : Moment) (listing : Option RuleSet) {ds : List Span}
    (hds : (s.tick t listing).1.scheduled.map (·.delay) = ds)
    (hbase : s.settings.baseIntervalSeconds < 1 <<< 64)
    (hsome : 0 < ds.length) (hlt : ds.length < 1 <<< 32) :
    (∃ ws, s.settings.baseWords.spread? ds.length = some ws ∧ ws.map SpanWords.toSpan = ds) ∧
      Spread (.ofSeconds s.settings.tickSeconds) ds := by
  have hdelays : ds = Cadence.delays (.ofSeconds s.settings.tickSeconds) ds.length := by
    have htick := s.delays_tick t listing
    rw [← List.length_map (·.delay), hds] at htick
    exact htick
  constructor
  · obtain ⟨ws, hws, hspans⟩ := s.settings.baseWords.exists_spread? hsome hlt
    rw [SchedulerSettings.toSpan_baseWords hbase, ← hdelays] at hspans
    exact ⟨ws, hws, hspans⟩
  · rw [hdelays]
    apply Cadence.spread_delays
    · exact Nat.mul_pos (by decide) (Nat.le_max_right _ _)
    · exact hsome

/-- Ten seconds divided among three evaluations, which leaves a nanosecond over. -/
def thirds : List Span := [⟨0⟩, ⟨3333333333⟩, ⟨6666666666⟩]

theorem spread_of_tick_thirds :
    ((new {} {} .epoch).tick .epoch
      (some (.ofListing [{ uid := "a" }, { uid := "b" }, { uid := "c" }] ∅))).1.scheduled.map
        (·.delay) = thirds ∧
      (∃ ws, (new {} {} .epoch).settings.baseWords.spread? 3 = some ws ∧
        ws.map SpanWords.toSpan = thirds) ∧
      Spread (.ofSeconds 10) thirds := by
  have hdelays : ((new {} {} .epoch).tick .epoch
      (some (.ofListing [{ uid := "a" }, { uid := "b" }, { uid := "c" }] ∅))).1.scheduled.map
        (·.delay) = thirds := by decide
  obtain ⟨hwords, hspread⟩ :=
    (new {} {} .epoch).spread_of_tick .epoch _ hdelays (by decide) (by decide) (by decide)
  exact ⟨hdelays, hwords, hspread⟩

end System

end Vigil
