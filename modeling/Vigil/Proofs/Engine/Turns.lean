import Vigil.Proofs.Engine.Reach

/-!
# The turns of a routine

What a routine goes through from its start are its own steps (`Worker.Turn`) and, between
two of them, whatever others do to its mailboxes, its stop signal and the data that routines
share (`Worker.Path`). The routines of an engine go through nothing else
(`System.path_run`), so each has come to where it is from its start (`System.Reached.path`).
-/

namespace Vigil

namespace Worker

/-- A step of a routine, from `worker` and `shared` to `worker'` and `shared'`. -/
structure Turn where
  root : Option StopReason
  input : Input
  worker : Worker
  shared : Shared
  worker' : Worker
  shared' : Shared

def Turn.IsStep (t : Turn) : Prop :=
  t.worker.step? t.root t.input t.shared = some (t.worker', t.shared')

/-- What others do to a routine. Its messages may be other ones, and what it keeps to itself
is as it was. -/
structure Abides (w w' : Worker) : Prop where
  key : w'.key = w.key
  own : w' = { w with handle := w'.handle }

/-- A routine goes from `w` by the turns `ts` to `w'`. -/
inductive Path (w : Worker) : List Turn → Worker → Prop where
  | refl : Path w [] w
  | wait {ts : List Turn} {v v' : Worker} (h : Path w ts v) (hv : v.Abides v') : Path w ts v'
  | turn {ts : List Turn} {t : Turn} (h : Path w ts t.worker) (ht : t.IsStep) :
      Path w (ts ++ [t]) t.worker'

variable {w w' v : Worker} {ts us : List Turn}

theorem Abides.phase (h : w.Abides w') : w'.phase = w.phase := by
  rw [h.own]

theorem Abides.version (h : w.Abides w') : w'.version = w.version := by
  rw [h.own]

theorem Stays.abides (h : w.Stays w') : w.Abides w' := ⟨h.key, h.own⟩

theorem Turn.IsStep.key {t : Turn} (h : t.IsStep) : t.worker'.key = t.worker.key :=
  (frame_of_step h).1.1

theorem Path.key (h : w.Path ts w') : w'.key = w.key := by
  induction h with
  | refl => rfl
  | wait _ hv ih => exact hv.key.trans ih
  | turn _ ht ih => exact ht.key.trans ih

theorem Path.trans (h : w.Path ts v) (h' : v.Path us w') : w.Path (ts ++ us) w' := by
  induction h' with
  | refl =>
      rw [List.append_nil]
      exact h
  | wait _ hv ih => exact .wait ih hv
  | turn _ ht ih =>
      rw [← List.append_assoc]
      exact .turn ih ht

end Worker

namespace System

open Worker (Turn)

variable {s t : System} {n : Nat} {w w' : Worker} {a : Action} {as : List Action}

/-- The turn of routine `n` in an action. -/
def turn? (s : System) (n : Nat) : Action → Option Turn
  | .worker m input =>
    if m = n then do
      let w ← s.registry.entries[n]?
      let (w', shared) ← w.step? s.root input s.shared
      return ⟨s.root, input, w, s.shared, w', shared⟩
    else none
  | _ => none

/-- The turns of routine `n` in a run. -/
def turns (n : Nat) (s : System) : List Action → List Turn
  | [] => []
  | a :: as =>
    (s.turn? n a).toList ++ match s.step? a with
      | some t => t.turns n as
      | none => []

theorem Stays.path (h : s.Stays t) (hw : s.registry.entries[n]? = some w) :
    ∃ w', t.registry.entries[n]? = some w' ∧ w.Path [] w' := by
  obtain ⟨w', hw', hstays⟩ := h.kept hw
  exact ⟨w', hw', .wait .refl hstays.abides⟩

theorem turn_of_step {input : Input} (h : s.step? (.worker n input) = some t) :
    ∃ turn, s.turn? n (.worker n input) = some turn ∧ turn.IsStep ∧
      s.registry.entries[n]? = some turn.worker ∧ t.registry.entries[n]? = some turn.worker' := by
  obtain ⟨w, w', d, hw, hstep, -, hw', -⟩ := stepWorker_cases h
  refine ⟨⟨s.root, input, w, s.shared, w', d⟩, ?_, hstep, hw, hw'⟩
  rw [turn?, if_pos rfl, hw]
  dsimp only [bind, Option.bind]
  rw [hstep]
  rfl

theorem path_step (hs : s.Tracks) (ha : a.IsListed) (hw : s.registry.entries[n]? = some w)
    (h : s.step? a = some t) :
    ∃ w', t.registry.entries[n]? = some w' ∧ w.Path (s.turn? n a).toList w' := by
  cases a with
  | worker m input =>
      by_cases hm : m = n
      · subst hm
        obtain ⟨turn, hturn, hstep, hv, hv'⟩ := turn_of_step h
        obtain rfl := Option.some.inj (hw.symm.trans hv)
        rw [hturn]
        exact ⟨turn.worker', hv', .turn .refl hstep⟩
      · obtain ⟨-, -, -, -, -, -, -, hothers⟩ := stepWorker_cases h
        rw [turn?, if_neg hm]
        exact ⟨w, (hothers n hm).trans hw, .refl⟩
  | _ => exact (stays_step hs ha h nofun).path hw

/-- **A routine in a run.** It goes on by its turns. -/
theorem path_run (hs : s.Tracks) (ha : ∀ a ∈ as, a.IsListed)
    (hw : s.registry.entries[n]? = some w) (h : s.run? as = some t) :
    ∃ w', t.registry.entries[n]? = some w' ∧ w.Path (s.turns n as) w' := by
  induction as generalizing s w with
  | nil =>
      cases h
      exact ⟨w, hw, .refl⟩
  | cons a as ih =>
      rw [List.forall_mem_cons] at ha
      rw [run?, List.foldlM_cons] at h
      obtain ⟨u, hu, h⟩ := Option.bind_eq_some_iff.1 h
      obtain ⟨v, hv, hpath⟩ := path_step hs ha.1 hw hu
      obtain ⟨w', hw', hrest⟩ := ih (tracks_step hs ha.1 hu) ha.2 hv h
      refine ⟨w', hw', ?_⟩
      rw [turns, hu]
      exact hpath.trans hrest

/-- The turns of routine `n` in a run before it takes `input`, that turn, those after it, and
where the routine is then. -/
def around (n : Nat) (s : System) (as : List Action) (input : Input) (bs : List Action) :
    Option (List Turn × Turn × List Turn × Worker) := do
  let s₁ ← s.run? as
  let turn ← s₁.turn? n (.worker n input)
  let s₂ ← s₁.step? (.worker n input)
  let s₃ ← s₂.run? bs
  let v ← s₃.registry.entries[n]?
  return (s.turns n as, turn, s₂.turns n bs, v)

theorem paths_of_around {before after : List Turn} {turn : Turn} {input : Input}
    {bs : List Action} {v : Worker} (hs : s.Reached) (has : ∀ a ∈ as, a.IsListed)
    (hbs : ∀ a ∈ bs, a.IsListed) (hw : s.registry.entries[n]? = some w)
    (h : s.around n as input bs = some (before, turn, after, v)) :
    w.Path before turn.worker ∧ turn.IsStep ∧ turn.worker'.Path after v := by
  obtain ⟨s₁, h₁, h⟩ := Option.bind_eq_some_iff.1 h
  obtain ⟨turn', hturn', h⟩ := Option.bind_eq_some_iff.1 h
  obtain ⟨s₂, h₂, h⟩ := Option.bind_eq_some_iff.1 h
  obtain ⟨s₃, h₃, h⟩ := Option.bind_eq_some_iff.1 h
  obtain ⟨v', hv, h⟩ := Option.bind_eq_some_iff.1 h
  cases h
  have hs₁ : s₁.Reached := hs.run has h₁
  have hs₂ : s₂.Reached := hs₁.step (a := .worker n input) trivial h₂
  obtain ⟨w₁, hw₁, hbefore⟩ := path_run hs.orderly.tracks has hw h₁
  obtain ⟨u, hu, hstep, hu₁, hu₂⟩ := turn_of_step h₂
  obtain rfl := Option.some.inj (hturn'.symm.trans hu)
  obtain rfl := Option.some.inj (hw₁.symm.trans hu₁)
  obtain ⟨w₃, hw₃, hafter⟩ := path_run hs₂.orderly.tracks hbs hu₂ h₃
  obtain rfl := Option.some.inj (hv.symm.trans hw₃)
  exact ⟨hbefore, hstep, hafter⟩

/-- **A routine of an engine.** It has come to where it is by turns, from its start. -/
theorem Reached.path (hs : s.Reached) (hw : s.registry.entries[n]? = some w) :
    ∃ ts, (Worker.new w.key).Path ts w := by
  induction hs generalizing w with
  | new => exact absurd hw nofun
  | manage _ d ih => exact ih hw
  | @step s t a hs ha h ih =>
      cases hold : s.registry.entries[n]? with
      | some v =>
          obtain ⟨ts, hts⟩ := ih hold
          obtain ⟨w', hw', hpath⟩ := path_step hs.orderly.tracks ha hold h
          obtain rfl := Option.some.inj (hw.symm.trans hw')
          rw [hpath.key]
          exact ⟨_, hts.trans hpath⟩
      | none =>
          obtain ⟨k, rfl⟩ : ∃ k, w = .new k := by
            cases a with
            | worker m input =>
                obtain ⟨v, v', d, hv, -, -, -, hothers⟩ := stepWorker_cases h
                have hm : m ≠ n := fun hm => absurd (hm ▸ hv) (by rw [hold]; nofun)
                exact absurd ((hothers n hm).symm.trans hw) (by rw [hold]; nofun)
            | _ => exact (stays_step hs.orderly.tracks ha h nofun).fresh hold hw
          exact ⟨[], .refl⟩

end System

end Vigil
