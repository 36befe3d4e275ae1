import Vigil.Proofs.Engine.Handover

/-!
# Listings that are late

A tick waits for the listing that it asked for. Meanwhile rules may be deleted, and other
ticks may ask for listings of their own (`Polled`). Each listing takes the place of the one
before it as it comes in, whenever it was asked for. So a deleted rule is away, with no new
routine and nothing sent to it, until a listing that has it comes in
(`Polled.away_after_delete`), and a listing that was asked for before the deletion brings it
back (`Polled.restarted_by_late_listing`).
-/

namespace Vigil

namespace System

variable {s t u : System} {k : RuleKey} {a : Action}

/-- From `s` to `t` no routine starts for rule `k` and no evaluation of it is sent, and `k`
does not run. -/
structure Away (k : RuleKey) (s t : System) : Prop where
  running : t.isRunning k = false
  routines : ∀ n, t.key? n = some k → s.key? n = some k
  dispatches : ∀ d ∈ t.dispatches, d.evaluation.rule.key = k → d ∈ s.dispatches

theorem Away.refl (h : s.isRunning k = false) : Away k s s := ⟨h, fun _ => id, fun _ hd _ => hd⟩

theorem Away.trans (h : Away k s t) (h' : Away k t u) : Away k s u :=
  ⟨h'.running, fun n hn => h.routines n (h'.routines n hn),
    fun d hd hk => h.dispatches d (h'.dispatches d hd hk) hk⟩

theorem away_of_rests (h : s.Rests t) (hk : t.isRunning k = false) : Away k s t :=
  ⟨hk, fun n hn => h.key?_eq n ▸ hn, fun _ hd _ => h.dispatches.subset hd⟩

/-- A deletion starts nothing. -/
theorem away_delete (hs : s.registry.Sound) {ks : List RuleKey} (hk : k ∈ ks) :
    Away k s (s.delete ks) := by
  refine away_of_rests (rests_delete hs ks) ?_
  rw [isRunning, find?_delete, if_pos hk]
  rfl

/-- Only a tick starts a routine or sends an evaluation. -/
theorem away_act (hs : s.Tracks) (htick : ∀ time listing, a ≠ .tick time listing)
    (h : s.step? a = some t) (hk : s.isRunning k = false) : Away k s t := by
  have hsilent : a.IsSilent := by
    cases a with
    | tick time listing => exact absurd rfl (htick time listing)
    | _ => trivial
  have hk' := not_running_step hs hsilent h hk
  cases a with
  | release number =>
      have hfewer : (s.dispatches.filter (·.number != number)) ⊆ s.dispatches :=
        List.filter_sublist.subset
      obtain ⟨d, w, -, hw, rfl | ⟨-, -, metrics, rfl⟩⟩ := release_cases h
      · exact ⟨hk', fun _ => id, fun _ hd _ => hfewer hd⟩
      · refine ⟨hk', fun n hn => ?_, fun _ hd _ => hfewer hd⟩
        unfold key? at hn ⊢
        rw [Registry.getElem?_modify] at hn
        split at hn
        · rename_i heq
          rw [← heq, hw] at hn ⊢
          exact (congrArg some (w.handle.key_offer s.root d.evaluation)).symm.trans hn
        · exact hn
  | worker n input =>
      refine ⟨hk', fun m hm => key?_worker h m ▸ hm, fun d hd _ => ?_⟩
      obtain ⟨_, _, _, _, _, ht, _⟩ := stepWorker_cases h
      rw [ht] at hd
      exact hd
  | _ => exact away_of_rests (rests_step hs.sound h htick nofun nofun) hk'

/-- A tick starts routines for the rules that it works on, and sends evaluations of no
others. -/
theorem away_tick (hs : s.Tracks) (time : Moment) {listing : Option RuleSet} {rules : RuleSet}
    (hrules : listing.getD s.rules = rules) (hkeyed : rules.Keyed)
    (hk : rules.rules.contains k = false) :
    Away k s (s.tick time listing).2 ∧
      ∀ e ∈ (s.tick time listing).1.scheduled, e.key ≠ k := by
  have hother : ∀ {e : Evaluation × Span}, e ∈ due s.settings rules time → e.1.rule.key ≠ k := by
    rintro e he rfl
    have hmem := key_mem_of_mem_due he
    rw [hkeyed.map_key_all, Table.mem_keys_iff, hk] at hmem
    cases hmem
  have hturns := (hs.tick time listing hrules hkeyed).2
  refine ⟨⟨(hturns.running k).trans hk, fun n hn => ?_, fun d hd hkey => ?_⟩, fun e he => ?_⟩
  · obtain ⟨w, hw, rfl⟩ := Option.map_eq_some_iff.1 hn
    rw [hturns.entries, List.getElem?_append] at hw
    split at hw
    · obtain ⟨v, hv, rfl⟩ := getElem?_dismissAll hw
      rw [key?_eq hv]
      split
      · exact congrArg some v.key_dismissed.symm
      · rfl
    · rw [List.getElem?_map] at hw
      obtain ⟨q, hq, rfl⟩ := Option.map_eq_some_iff.1 hw
      have hlisted := Table.mem_keys_iff.1 (List.mem_filter.1 (List.mem_of_getElem? hq)).1
      exact absurd (hk.symm.trans hlisted) nofun
  · obtain ⟨ds, hsends, htick⟩ := tick_eq hrules hkeyed time rfl
    rw [htick, delete_eq] at hd
    rcases List.mem_append.1 hd with hold | hnew
    · exact hold
    · have hmem : d.evaluation ∈ ds.map (·.evaluation) := List.mem_map_of_mem hnew
      rw [hsends.evaluations] at hmem
      obtain ⟨e, he, hsame⟩ := List.mem_map.1 hmem
      exact absurd (hsame ▸ hkey) (hother he)
  · subst hrules
    obtain ⟨⟨e', delay⟩, he', rfl⟩ := List.mem_map.1 he
    exact hother he'

end System

/-- An engine with the ticks that wait for their listings. -/
structure Polled where
  system : System
  /-- The time of each tick that waits, under the number of its request. -/
  waiting : List (Nat × Moment) := []
  /-- How many listings were asked for. -/
  asked : Nat := 0
  /-- What the ticks that are done report. -/
  reports : List TickReport := []

namespace Polled

/-- What can happen to an engine whose rule source takes its time. -/
inductive Move where
  /-- A tick asks for a listing. -/
  | ask (time : Moment)
  /-- The listing with this number comes in, or it fails, and its tick is done. -/
  | answer (number : Nat) (listing : Option RuleSet)
  /-- Something else happens to the engine. -/
  | act (a : System.Action)

namespace Move

/-- What comes in is a listing of rules, and a tick asks before it is done. -/
def IsListed : Move → Prop
  | .answer _ (some rules) => ∃ listed folders, rules = .ofListing listed folders
  | .act (.tick _ _) => False
  | _ => True

/-- A listing that comes in lacks rule `k`, if its number is at least `first`. -/
def Lacks (k : RuleKey) (first : Nat) : Move → Prop
  | .answer number (some rules) => first ≤ number → rules.rules.contains k = false
  | _ => True

end Move

def step? (p : Polled) : Move → Option Polled
  | .ask time =>
    some { p with waiting := p.waiting ++ [(p.asked, time)], asked := p.asked + 1 }
  | .answer number listing => do
    let (_, time) ← p.waiting.find? (·.1 == number)
    let (report, system) := p.system.tick time listing
    return { p with
      system
      waiting := p.waiting.filter (·.1 != number)
      reports := p.reports ++ [report] }
  | .act a => (p.system.step? a).map fun system => { p with system }

def run? (p : Polled) (ms : List Move) : Option Polled := ms.foldlM step? p

def delete (p : Polled) (ks : List RuleKey) : Polled := { p with system := p.system.delete ks }

variable {p q r : Polled} {k : RuleKey} {a : System.Action} {m : Move} {ms : List Move}

theorem run?_snoc (p : Polled) (ms : List Move) (m : Move) :
    p.run? (ms ++ [m]) = (p.run? ms).bind (·.step? m) :=
  Desk.foldlM_concat step? p ms m

/-- From `p` to `q` rule `k` is away, also from what the ticks report. -/
structure Away (k : RuleKey) (p q : Polled) : Prop where
  system : System.Away k p.system q.system
  reports : ∃ rs, q.reports = p.reports ++ rs ∧ ∀ r ∈ rs, ∀ e ∈ r.scheduled, e.key ≠ k

theorem Away.trans (h : Away k p q) (h' : Away k q r) : Away k p r := by
  obtain ⟨rs, hrs, hother⟩ := h.reports
  obtain ⟨rs', hrs', hother'⟩ := h'.reports
  refine ⟨h.system.trans h'.system, rs ++ rs', ?_, List.forall_mem_append.2 ⟨hother, hother'⟩⟩
  rw [hrs', hrs, List.append_assoc]

theorem away_of_reports_eq (h : System.Away k p.system q.system) (hr : q.reports = p.reports) :
    Away k p q :=
  ⟨h, [], by rw [hr, List.append_nil], List.forall_mem_nil _⟩

theorem isListed_answer {number : Nat} {listing : Option RuleSet}
    (hm : (Move.answer number listing).IsListed) (time : Moment) :
    (System.Action.tick time listing).IsListed := by
  cases listing with
  | none => trivial
  | some rules => exact hm

theorem isListed_act (hm : (Move.act a).IsListed) :
    (∀ time listing, a ≠ .tick time listing) ∧ a.IsListed := by
  cases a with
  | tick time listing => exact absurd hm id
  | _ => exact ⟨nofun, trivial⟩

theorem reached_step (hp : p.system.Reached) (hm : m.IsListed) (h : p.step? m = some q) :
    q.system.Reached := by
  cases m with
  | ask time =>
      cases h
      exact hp
  | answer number listing =>
      obtain ⟨⟨_, time⟩, _, hdone⟩ := Option.bind_eq_some_iff.1 h
      cases hdone
      exact hp.step (a := .tick time listing) (isListed_answer hm time) rfl
  | act a =>
      obtain ⟨t, ht, rfl⟩ := Option.map_eq_some_iff.1 h
      exact hp.step (isListed_act hm).2 ht

theorem reached_run (hp : p.system.Reached) (hm : ∀ m ∈ ms, m.IsListed)
    (h : p.run? ms = some q) : q.system.Reached := by
  induction ms using List.reverseRecOn generalizing q with
  | nil =>
      cases h
      exact hp
  | append_singleton ms m ih =>
      rw [List.forall_mem_append, List.forall_mem_singleton] at hm
      rw [run?_snoc] at h
      obtain ⟨r, hr, hstep⟩ := Option.bind_eq_some_iff.1 h
      exact reached_step (ih hm.1 hr) hm.2 hstep

/-- **A move while the rule is away.** -/
theorem away_step (hp : p.system.Tracks) (hk : p.system.isRunning k = false) (hm : m.IsListed)
    (hlacks : m.Lacks k 0) (h : p.step? m = some q) : Away k p q := by
  cases m with
  | ask time =>
      cases h
      exact away_of_reports_eq (.refl hk) rfl
  | answer number listing =>
      obtain ⟨⟨_, time⟩, _, hdone⟩ := Option.bind_eq_some_iff.1 h
      cases hdone
      -- without a listing the tick works on rules from which the deletion took this one
      have hnot : (listing.getD p.system.rules).rules.contains k = false := by
        cases listing with
        | none => exact (hp.running k).symm.trans hk
        | some rules => exact hlacks (Nat.zero_le _)
      obtain ⟨haway, hother⟩ :=
        System.away_tick hp time rfl (hp.keyed_getD (isListed_answer hm time)) hnot
      exact ⟨haway, _, rfl, List.forall_mem_singleton.2 hother⟩
  | act a =>
      obtain ⟨t, ht, rfl⟩ := Option.map_eq_some_iff.1 h
      exact away_of_reports_eq (System.away_act hp (isListed_act hm).1 ht hk) rfl

/-- **A deleted rule is away** until a listing that has it comes in, whatever ticks were
waiting for their listings at the deletion. Until then it does not run, no routine starts for
it, no evaluation is sent to it, and no tick that is done reports one. -/
theorem away_after_delete (hp : p.system.Reached) {ks : List RuleKey} (hk : k ∈ ks)
    (hm : ∀ m ∈ ms, m.IsListed) (hlacks : ∀ m ∈ ms, m.Lacks k 0)
    (h : (p.delete ks).run? ms = some q) : Away k p q := by
  have hdeleted : (p.delete ks).system.Reached := hp.step (a := .delete ks) trivial rfl
  induction ms using List.reverseRecOn generalizing q with
  | nil =>
      cases h
      exact away_of_reports_eq (System.away_delete hp.orderly.tracks.sound hk) rfl
  | append_singleton ms m ih =>
      rw [List.forall_mem_append, List.forall_mem_singleton] at hm hlacks
      rw [run?_snoc] at h
      obtain ⟨r, hr, hstep⟩ := Option.bind_eq_some_iff.1 h
      have haway := ih hm.1 hlacks.1 hr
      have htracks := (reached_run hdeleted hm.1 hr).orderly.tracks
      exact haway.trans (away_step htracks haway.system.running hm.2 hlacks.2 hstep)

/-- Nothing has happened to the engine. -/
def new : Polled := { system := .new {} {} .epoch }

/-- A rule runs, and the next tick has asked for its listing. -/
def asking : List Move :=
  [.ask .epoch, .answer 0 (some (System.listed 1)), .ask ⟨10 * nanosPerSecond⟩]

/-- The listing comes in without the rule, and the one after it fails. -/
def unlisted : List Move :=
  [.answer 1 (some (.ofListing [{ uid := "a" }] ∅)), .ask ⟨20 * nanosPerSecond⟩, .answer 2 none,
   .act (.release 0)]

theorem isListed_asking : ∀ m ∈ asking, m.IsListed := by
  simp only [asking, List.forall_mem_cons]
  exact ⟨trivial, ⟨_, _, rfl⟩, trivial, List.forall_mem_nil _⟩

theorem away_after_delete_unlisted :
    (∀ m ∈ unlisted, m.IsListed) ∧ (∀ m ∈ unlisted, m.Lacks ⟨1, "b"⟩ 0) ∧
      ∃ p q, new.run? asking = some p ∧ (p.delete [⟨1, "b"⟩]).run? unlisted = some q ∧
        p.system.Reached ∧ Away ⟨1, "b"⟩ p q := by
  have hlisted : ∀ m ∈ unlisted, m.IsListed := by
    simp only [unlisted, List.forall_mem_cons]
    exact ⟨⟨_, _, rfl⟩, trivial, trivial, trivial, List.forall_mem_nil _⟩
  have hlacks : ∀ m ∈ unlisted, m.Lacks ⟨1, "b"⟩ 0 := by
    simp only [unlisted, List.forall_mem_cons]
    exact ⟨fun _ => by decide, trivial, trivial, trivial, List.forall_mem_nil _⟩
  have hrun : ((new.run? asking).bind fun p => (p.delete [⟨1, "b"⟩]).run? unlisted).isSome =
      true := by decide +kernel
  obtain ⟨q, h⟩ := Option.isSome_iff_exists.1 hrun
  obtain ⟨p, hp, hq⟩ := Option.bind_eq_some_iff.1 h
  have hreached := reached_run (.new {} {} .epoch) isListed_asking hp
  exact ⟨hlisted, hlacks, p, q, hp, hq, hreached,
    away_after_delete hreached List.mem_cons_self hlisted hlacks hq⟩

/-- The listing that was asked for before the deletion comes in after it, with the rule. -/
def late : List Move := [.answer 1 (some (System.listed 1))]

/-- **A listing is as good as new when it comes in.** No listing that was asked for after the
deletion has the rule, and yet the rule runs again, in a new routine that an evaluation is sent
to. -/
theorem restarted_by_late_listing :
    (∀ m ∈ asking ++ late, m.IsListed) ∧ ∃ p q, new.run? asking = some p ∧
      (p.delete [⟨1, "b"⟩]).run? late = some q ∧ (∀ m ∈ late, m.Lacks ⟨1, "b"⟩ p.asked) ∧
      ¬ Away ⟨1, "b"⟩ p q ∧
      q.system.isRunning ⟨1, "b"⟩ = true ∧
      p.system.key? 1 = none ∧ q.system.key? 1 = some ⟨1, "b"⟩ ∧
      (q.reports.drop p.reports.length).map (·.scheduled.map (·.key)) = [[⟨1, "b"⟩]] := by
  have hlisted : ∀ m ∈ late, m.IsListed := List.forall_mem_singleton.2 ⟨_, _, rfl⟩
  have hrun : ((new.run? asking).bind fun p => ((p.delete [⟨1, "b"⟩]).run? late).map fun q =>
      p.asked == 2 && q.system.isRunning ⟨1, "b"⟩ && (p.system.key? 1).isNone &&
        decide (q.system.key? 1 = some ⟨1, "b"⟩) &&
        decide ((q.reports.drop p.reports.length).map (·.scheduled.map (·.key)) =
          [[⟨1, "b"⟩]])) = some true := by decide +kernel
  obtain ⟨p, hp, h⟩ := Option.bind_eq_some_iff.1 hrun
  obtain ⟨q, hq, h⟩ := Option.map_eq_some_iff.1 h
  simp only [Bool.and_eq_true, beq_iff_eq, decide_eq_true_eq, Option.isNone_iff_eq_none] at h
  obtain ⟨⟨⟨⟨hasked, hrunning⟩, hbefore⟩, hafter⟩, hscheduled⟩ := h
  refine ⟨List.forall_mem_append.2 ⟨isListed_asking, hlisted⟩, p, q, hp, hq, ?_, fun haway => ?_,
    hrunning, hbefore, hafter, hscheduled⟩
  · rw [hasked]
    exact List.forall_mem_singleton.2 fun hlate => absurd hlate (by decide)
  · exact absurd (haway.system.running.symm.trans hrunning) nofun

end Polled

end Vigil
