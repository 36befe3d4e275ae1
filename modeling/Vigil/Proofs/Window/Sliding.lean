import Mathlib.Data.List.Induction
import Mathlib.Order.Bounds.Basic
import Mathlib.Order.Bounds.Image
import Vigil.Proofs.Instance.Run

/-!
# Sliding windows

A window is used in two ways: a point is pushed, or the capacity is set. Either drops points at
the old end, one at a time, as long as there are too many (`Window.Evicts`). What remains are
the newest of all points that were ever pushed, and how many that are was decided at the
narrowest moment: those that the capacity allowed then, and those pushed since
(`Window.Slides`). The window of an instance is used that way by every verdict that counts
(`Window.slides_run`).
-/

namespace Vigil

namespace Window

/-! ## The newest points -/

theorem length_newest (n : Nat) (ps : List Point) : (newest n ps).length = min n ps.length := by
  simp [newest]
  omega

theorem newest_of_length_le {n : Nat} {ps : List Point} (h : ps.length ≤ n) :
    newest n ps = ps := by
  simp [newest, Nat.sub_eq_zero_of_le h]

theorem newest_newest (m n : Nat) (ps : List Point) :
    newest m (newest n ps) = newest (min m n) ps := by
  rw [newest, length_newest, newest, newest, List.drop_drop]
  congr 1
  omega

theorem newest_snoc (n : Nat) (ps : List Point) (p : Point) :
    newest n ps ++ [p] = newest (n + 1) (ps ++ [p]) := by
  simp only [newest, List.length_append, List.length_singleton]
  rw [List.drop_append_of_le_length (by omega)]
  congr 2
  omega

/-- Without the oldest point the newest are the same, if that was not among them. -/
theorem newest_tail {n : Nat} {ps : List Point} (h : n < ps.length) :
    newest n ps.tail = newest n ps := by
  simp only [newest, List.length_tail, List.drop_tail]
  congr 1
  omega

/-! ## Dropping the oldest -/

/-- As long as the number of points is `full` the oldest of them is dropped. That comes to an
end, and leaves `qs`. -/
inductive Evicts (full : Nat → Prop) : List Point → List Point → Prop
  | stop {ps : List Point} (h : ¬ full ps.length) : Evicts full ps ps
  | drop {ps qs : List Point} (h : full ps.length) (rest : Evicts full ps.tail qs) :
      Evicts full ps qs

/-- Points beyond a limit are dropped until the limit is met. -/
theorem evicts_newest (limit : Nat) (ps : List Point) :
    Evicts (limit < ·) ps (newest limit ps) := by
  induction ps with
  | nil =>
      rw [newest_of_length_le (Nat.zero_le limit)]
      exact Evicts.stop (Nat.not_lt_zero limit)
  | cons p ps ih =>
      by_cases hfull : limit < (p :: ps).length
      · apply Evicts.drop hfull
        rw [← newest_tail hfull]
        exact ih
      · rw [newest_of_length_le (Nat.not_lt.1 hfull)]
        exact Evicts.stop hfull

/-- A push drops points until there is room for its own. -/
theorem evicts_push (w : Window) (p : Point) :
    ∃ qs, Evicts (w.capacity ≤ ·) w.points qs ∧ (w.push p).points = qs ++ [p] := by
  obtain ⟨limit, hlimit⟩ : ∃ limit, w.capacity = limit + 1 :=
    Nat.exists_eq_succ_of_ne_zero (Nat.ne_of_gt w.capacity_pos)
  refine ⟨newest limit w.points, ?_, ?_⟩
  · rw [hlimit]
    exact evicts_newest limit w.points
  · show newest (w.capacity - 1) w.points ++ [p] = _
    rw [hlimit]
    rfl

/-- That rests on the capacity: where there is room for no point at all the dropping would go on
when none is left. -/
theorem not_evicts_of_zero (ps qs : List Point) : ¬ Evicts (0 ≤ ·) ps qs := by
  intro h
  induction h with
  | stop hroom => exact hroom (Nat.zero_le _)
  | drop _ _ ih => exact ih

/-! ## Uses -/

/-- One use of a window. -/
inductive Use where
  | push (p : Point)
  | resize (capacity : Nat)

namespace Use

def point? : Use → Option Point
  | push p => some p
  | resize _ => none

def capacity? : Use → Option Nat
  | push _ => none
  | resize n => some n

end Use

def use (w : Window) : Use → Window
  | .push p => w.push p
  | .resize n => w.resize n

/-- A new window after it was used. -/
def run (capacity : Nat) (us : List Use) : Window := us.foldl use (new capacity)

/-- What was pushed, in order. -/
def pushed (us : List Use) : List Point := us.filterMap Use.point?

/-- The capacity that was set last, or else the first one. There is room for one point at
least. -/
def inForce (capacity : Nat) (us : List Use) : Nat :=
  max ((us.filterMap Use.capacity?).getLast?.getD capacity) 1

/-- What bounds the number of points: all that were pushed, and at each moment as many as the
capacity allowed, with those that were pushed since. -/
def bounds (capacity : Nat) (us : List Use) : Set Nat :=
  {n | n = (pushed us).length ∨ ∃ before after, us = before ++ after ∧
    n = inForce capacity before + (pushed after).length}

variable {capacity : Nat} {us : List Use}

theorem run_snoc (capacity : Nat) (us : List Use) (u : Use) :
    run capacity (us ++ [u]) = (run capacity us).use u := by
  unfold run
  rw [List.foldl_append]
  rfl

theorem pushed_append (us us' : List Use) : pushed (us ++ us') = pushed us ++ pushed us' :=
  List.filterMap_append

theorem inForce_push (capacity : Nat) (us : List Use) (p : Point) :
    inForce capacity (us ++ [.push p]) = inForce capacity us := by
  simp [inForce, Use.capacity?]

theorem inForce_resize (capacity : Nat) (us : List Use) (n : Nat) :
    inForce capacity (us ++ [.resize n]) = max n 1 := by
  simp [inForce, Use.capacity?]

/-- One more use adds the present moment, after all the earlier ones. -/
theorem mem_bounds_snoc {u : Use} {n : Nat} :
    n ∈ bounds capacity (us ++ [u]) ↔
      n = inForce capacity (us ++ [u]) ∨
        ∃ m ∈ bounds capacity us, n = m + (pushed [u]).length := by
  constructor
  · rintro (hall | ⟨before, after, hsplit, hn⟩)
    · refine Or.inr ⟨_, Or.inl rfl, ?_⟩
      rw [hall, pushed_append, List.length_append]
    · rcases List.eq_nil_or_concat after with rfl | ⟨after, last, rfl⟩
      · rw [List.append_nil] at hsplit
        left
        simp [hn, hsplit, pushed]
      · rw [List.concat_eq_append, ← List.append_assoc] at hsplit
        obtain ⟨hus, hlast⟩ := List.append_inj' hsplit rfl
        refine Or.inr ⟨_, Or.inr ⟨before, after, hus, rfl⟩, ?_⟩
        rw [hn, List.concat_eq_append, hlast, pushed_append, List.length_append, Nat.add_assoc]
  · rintro (hnow | ⟨m, hall | ⟨before, after, hsplit, hm⟩, hn⟩)
    · exact Or.inr ⟨us ++ [u], [], (List.append_nil _).symm, hnow⟩
    · left
      rw [hn, hall, pushed_append, List.length_append]
    · refine Or.inr ⟨before, after ++ [u], ?_, ?_⟩
      · rw [hsplit, List.append_assoc]
      · rw [hn, hm, pushed_append, List.length_append, Nat.add_assoc]

/-- So the least bound is the one there was, with the point that the use pushes, or the capacity
now. -/
theorem isLeast_bounds_snoc {u : Use} {shown : Nat} (h : IsLeast (bounds capacity us) shown) :
    IsLeast (bounds capacity (us ++ [u]))
      (min (inForce capacity (us ++ [u])) (shown + (pushed [u]).length)) := by
  have hset : bounds capacity (us ++ [u]) =
      insert (inForce capacity (us ++ [u])) ((· + (pushed [u]).length) '' bounds capacity us) := by
    ext n
    rw [mem_bounds_snoc, Set.mem_insert_iff, Set.mem_image]
    simp only [eq_comm]
  rw [hset]
  apply IsLeast.insert
  apply Monotone.map_isLeast _ h
  intro m n hmn
  exact Nat.add_le_add_right hmn _

theorem isLeast_bounds_nil (capacity : Nat) : IsLeast (bounds capacity []) 0 := by
  constructor
  · exact Or.inl rfl
  · intro n _
    exact Nat.zero_le n

theorem capacity_run (capacity : Nat) (us : List Use) :
    (run capacity us).capacity = inForce capacity us := by
  induction us using List.reverseRecOn with
  | nil => rfl
  | append_singleton us u ih =>
      rw [run_snoc]
      cases u with
      | push p => rw [inForce_push, ← ih]; rfl
      | resize n => rw [inForce_resize]; rfl

/-- **The points of a window** are the newest that were pushed, as many as the least bound
says. -/
theorem points_run (capacity : Nat) (us : List Use) :
    ∃ shown, IsLeast (bounds capacity us) shown ∧
      (run capacity us).points = newest shown (pushed us) := by
  induction us using List.reverseRecOn with
  | nil => exact ⟨0, isLeast_bounds_nil capacity, rfl⟩
  | append_singleton us u ih =>
      obtain ⟨shown, hleast, hpoints⟩ := ih
      refine ⟨_, isLeast_bounds_snoc hleast, ?_⟩
      rw [run_snoc, pushed_append]
      cases u with
      | push p =>
          have hpos : 0 < inForce capacity us := by
            rw [← capacity_run]
            exact (run capacity us).capacity_pos
          show newest _ (run capacity us).points ++ [p] = newest _ (pushed us ++ [p])
          rw [hpoints, newest_newest, newest_snoc, inForce_push, capacity_run]
          congr 1
          simp [pushed, Use.point?]
          omega
      | resize n =>
          show newest (max n 1) (run capacity us).points = newest _ (pushed us ++ [])
          rw [hpoints, newest_newest, inForce_resize, List.append_nil]
          rfl

/-- What a window shows after it was used. -/
structure Slides (w : Window) (capacity : Nat) (us : List Use) : Prop where
  capacity_eq : w.capacity = inForce capacity us
  capacity_pos : 1 ≤ w.capacity
  points : ∃ shown, IsLeast (bounds capacity us) shown ∧ w.points = newest shown (pushed us)
  /-- The next push comes to an end. -/
  push : ∀ p, ∃ qs, Evicts (w.capacity ≤ ·) w.points qs ∧ (w.push p).points = qs ++ [p]
  /-- So does the next change of the capacity, -/
  resize : ∀ n, Evicts (max n 1 < ·) w.points (w.resize n).points
  /-- which brings no point back. -/
  grow : ∀ n, w.capacity ≤ n → (w.resize n).points = w.points

end Window

namespace Instance

/-- How a run uses the window of its instance: each verdict that counts sets the capacity, and
then it is pushed. -/
def uses (as : List Application) : List Window.Use :=
  (as.filter Application.counts).flatMap fun a =>
    [.resize (Window.capacityFor a.rule.holdFor a.rule.interval a.policy.maxResults),
      .push a.point]

theorem uses_snoc (as : List Application) (a : Application) :
    uses (as ++ [a]) = uses as ++ uses [a] := by
  simp [uses, List.filter_append]

theorem window_next (i : Instance) (a : Application) :
    (i.next a).window = (uses [a]).foldl Window.use i.window := by
  by_cases ha : a.counts = true
  · obtain ⟨t, ht⟩ := Application.exists_target ha
    have ht' : a.rule.target? a.verdict.status = some t := ht
    simp only [uses, List.filter_cons_of_pos ha, next, apply, ht']
    split
    · rfl
    · rfl
  · simp only [Bool.not_eq_true] at ha
    rw [next_of_pending i ha]
    simp [uses, ha]

theorem window_drive (i : Instance) (as : List Application) :
    (i.drive as).window = (uses as).foldl Window.use i.window := by
  induction as using List.reverseRecOn with
  | nil => rfl
  | append_singleton as a ih =>
      rw [drive_snoc, window_next, uses_snoc, List.foldl_append, ih]

theorem pushed_uses (as : List Application) :
    Window.pushed (uses as) = (as.filter Application.counts).map Application.point := by
  unfold uses
  induction as.filter Application.counts with
  | nil => rfl
  | cons a as ih =>
      rw [List.flatMap_cons, Window.pushed_append, ih]
      rfl

end Instance

namespace Window

/-- **Sliding windows.** After any uses a window shows the newest of the points that were pushed,
as many as there were at its narrowest moment and have come since, and it can be used again.
The window of an instance does so with the verdicts that count as its points. -/
theorem slides_run (capacity : Nat) :
    (∀ us, (run capacity us).Slides capacity us) ∧
    ∀ (r : Rule) (labels : Labels) (as : List Application),
      ((Instance.new r labels capacity).drive as).window.Slides capacity (Instance.uses as) ∧
      pushed (Instance.uses as) = (as.filter Application.counts).map Application.point := by
  have hslides : ∀ us, (run capacity us).Slides capacity us := by
    intro us
    constructor
    · exact capacity_run capacity us
    · rw [capacity_run]
      exact Nat.le_max_right _ 1
    · exact points_run capacity us
    · exact evicts_push (run capacity us)
    · intro n
      exact evicts_newest (max n 1) (run capacity us).points
    · intro n hn
      have hlength := (run capacity us).length_le
      apply newest_of_length_le
      omega
  refine ⟨hslides, ?_⟩
  intro r labels as
  have hwindow : ((Instance.new r labels capacity).drive as).window =
      run capacity (Instance.uses as) := Instance.window_drive _ as
  rw [hwindow]
  exact ⟨hslides _, Instance.pushed_uses as⟩

/-- A window that was narrow for a while has lost what did not fit. -/
example (p q r : Point) :
    (run 3 [.push p, .push q, .resize 1, .resize 3, .push r]).points = [q, r] := rfl

end Window

end Vigil
