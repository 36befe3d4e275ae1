import Mathlib.Logic.Relation
import Vigil.Proofs.Stop.Observers

/-!
# How far a stop reaches

A source can be a child of one that is a child itself, to any depth. An observer follows the
signal of its own source and that of the parent, not the ones above. So a stop reaches the
source that it is called on and its children, through every token of these however and whenever
it was taken, and nothing else (`StopBoard.reach_of_run`).
-/

namespace Vigil

/-! ## The tree that calls build -/

namespace StopCall

/-- The sources that calls make, in order: for each the source that it is a child of. -/
def made (calls : List StopCall) : List (Option Nat) :=
  calls.filterMap fun
    | new => some none
    | child s => some (some s)
    | _ => none

/-- The source that source `n` is a child of. -/
def parent (calls : List StopCall) (n : Nat) : Option Nat := (made calls)[n]?.join

/-- Source `a` is an ancestor of source `n`. -/
def Above (calls : List StopCall) (a n : Nat) : Prop :=
  Relation.TransGen (fun p m => parent calls m = some p) a n

/-- The number of tokens that calls take. -/
def taken (calls : List StopCall) : Nat :=
  calls.countP fun
    | token _ | clone _ => true
    | _ => false

/-- Token `t` is one of source `n`: it was taken there, or it is a copy of such a token. -/
inductive TokenOf : List StopCall → Nat → Nat → Prop
  | taken {calls n} : TokenOf (calls ++ [token n]) (taken calls) n
  | copied {calls u n} : TokenOf calls u n → TokenOf (calls ++ [clone u]) (taken calls) n
  | later {calls c t n} : TokenOf calls t n → TokenOf (calls ++ [c]) t n

variable {calls : List StopCall} {c : StopCall} {a n p t : Nat}

theorem parent_eq_some_iff : parent calls n = some p ↔ (made calls)[n]? = some (some p) :=
  Option.join_eq_some_iff

theorem made_snoc (calls : List StopCall) (c : StopCall) :
    made (calls ++ [c]) = made calls ++ made [c] := List.filterMap_append

theorem taken_snoc (calls : List StopCall) (c : StopCall) :
    taken (calls ++ [c]) = taken calls + taken [c] := List.countP_append

theorem tokenOf_snoc_iff : TokenOf (calls ++ [c]) t n ↔ TokenOf calls t n ∨
    t = taken calls ∧ (c = token n ∨ ∃ u, c = clone u ∧ TokenOf calls u n) := by
  constructor
  · generalize hcalls : calls ++ [c] = calls'
    rintro (_ | hu | ht) <;> obtain ⟨rfl, hc⟩ := List.append_inj' hcalls rfl <;>
      obtain rfl := List.singleton_inj.1 hc
    · exact Or.inr ⟨rfl, Or.inl rfl⟩
    · exact Or.inr ⟨rfl, Or.inr ⟨_, rfl, hu⟩⟩
    · exact Or.inl ht
  · rintro (ht | ⟨rfl, rfl | ⟨u, rfl, hu⟩⟩)
    · exact ht.later
    · exact .taken
    · exact hu.copied

/-- A source was stopped just if there is a first reason for it. -/
theorem firstReason_ne_none_iff : firstReason calls n ≠ none ↔ ∃ r, stop n r ∈ calls := by
  rw [← Option.isSome_iff_ne_none, firstReason, List.findSome?_isSome_iff]
  constructor
  · rintro ⟨c, hc, hsome⟩
    cases c with
    | stop m r =>
        obtain rfl : m = n := by
          by_contra hne
          simp [hne] at hsome
        exact ⟨r, hc⟩
    | _ => cases hsome
  · rintro ⟨r, hr⟩
    exact ⟨_, hr, by simp⟩

end StopCall

/-! ## A stop and the other sources -/

namespace StopForest

variable {f : StopForest} {m s : Nat}

/-- One source is rewritten, and stays a child of what it was a child of. -/
theorem map_parent_of_getElem? {f' : StopForest} {g : StopSource → StopSource}
    (hsources : ∀ n, f'.sources[n]? = f.sources[n]?.map fun e => if s = n then g e else e)
    (hparent : ∀ e, (g e).parent = e.parent) :
    f'.sources.map (·.parent) = f.sources.map (·.parent) := by
  refine List.ext_getElem? fun n => ?_
  rw [List.getElem?_map, List.getElem?_map, hsources, Option.map_map]
  refine congrArg (Option.map · _) (funext fun e => ?_)
  rw [Function.comp_apply, apply_ite StopSource.parent, hparent, ite_self]

theorem map_parent_stop (f : StopForest) (s : Nat) (r : StopReason) :
    (f.stop s r).2.sources.map (·.parent) = f.sources.map (·.parent) :=
  map_parent_of_getElem? (f.getElem?_stop s r) fun _ => rfl

theorem map_parent_drop (f : StopForest) (s : Nat) :
    (f.drop s).sources.map (·.parent) = f.sources.map (·.parent) :=
  map_parent_of_getElem? (f.getElem?_drop s) fun _ => rfl

theorem parent_eq (f : StopForest) (n : Nat) :
    f.parent n = (f.sources.map (·.parent))[n]?.join := by
  rw [List.getElem?_map, parent]
  cases f.sources[n]? <;> rfl

theorem parent_stop (f : StopForest) (s : Nat) (r : StopReason) :
    (f.stop s r).2.parent = f.parent :=
  funext fun n => by rw [parent_eq, map_parent_stop, ← parent_eq]

theorem signal_stop_of_ne (r : StopReason) (hm : m ≠ s) :
    (f.stop s r).2.signal m = f.signal m := by
  unfold signal
  rw [getElem?_stop, Option.bind_map]
  exact congrArg _ (funext fun e => congrArg StopSource.reason (if_neg hm.symm))

/-- A stop is news for nobody but the source and its children. -/
theorem reason_stop_of_ne (r : StopReason) (hm : m ≠ s) (hparent : f.parent m ≠ some s) :
    (f.stop s r).2.reason m = f.reason m := by
  unfold reason
  rw [signal_stop_of_ne r hm, parent_stop]
  cases hp : f.parent m with
  | none => rfl
  | some p =>
      have hps : p ≠ s := fun heq => hparent (heq ▸ hp)
      exact congrArg _ (signal_stop_of_ne r hps)

/-- A stop answers whether the source had not fired. -/
theorem stop_fst_iff (r : StopReason) (hs : s < f.sources.length) :
    (f.stop s r).1 = true ↔ f.signal s = none := by
  unfold stop signal
  rw [List.getElem?_eq_getElem hs, Option.bind_some]
  dsimp only
  cases f.sources[s].reason with
  | none => exact iff_of_true rfl rfl
  | some r' => exact iff_of_false (fun htrue => by cases htrue) (Option.some_ne_none r')

end StopForest

namespace StopBoard

/-- The reason to stop that token `t` reads. -/
def read (b : StopBoard) (t : Nat) : Option StopReason := b.tokens[t]?.bind b.forest.reason

/-! ## The tree on the board -/

/-- What a board shows of the tree that the calls built. -/
structure Shows (b : StopBoard) (calls : List StopCall) : Prop where
  parents : b.forest.sources.map (·.parent) = StopCall.made calls
  /-- A child comes after its parent. -/
  below : ∀ n p, StopCall.parent calls n = some p → p < n
  length : b.tokens.length = StopCall.taken calls
  tokens : ∀ t n, b.tokens[t]? = some n ↔ StopCall.TokenOf calls t n

theorem shows_empty : Shows {} [] where
  parents := rfl
  below _ _ hp := by cases hp
  length := rfl
  tokens t n := by
    refine iff_of_false (fun ht => by cases ht) ?_
    generalize hcalls : [] = calls
    rintro (_ | _ | _) <;> exact List.append_ne_nil_of_right_ne_nil _ (by simp) hcalls.symm

variable {b b' : StopBoard} {calls before after : List StopCall} {c : StopCall} {m n s t : Nat}

theorem Shows.length_sources (h : Shows b calls) :
    b.forest.sources.length = (StopCall.made calls).length := by
  rw [← h.parents, List.length_map]

theorem Shows.parent_eq (h : Shows b calls) (n : Nat) :
    b.forest.parent n = StopCall.parent calls n := by
  rw [StopForest.parent_eq, h.parents]
  rfl

/-- The call takes no token. -/
theorem Shows.tokens_snoc (h : Shows b calls) (hc : StopCall.taken [c] = 0) (t n : Nat) :
    b.tokens[t]? = some n ↔ StopCall.TokenOf (calls ++ [c]) t n := by
  rw [h.tokens, StopCall.tokenOf_snoc_iff, iff_self_or]
  rintro ⟨-, rfl | ⟨u, rfl, -⟩⟩ <;> cases hc

/-- A source is added. -/
theorem Shows.add (h : Shows b calls) {q : Option Nat} (hmade : StopCall.made [c] = [q])
    (hc : StopCall.taken [c] = 0) (hq : ∀ p, q = some p → p < b.forest.sources.length) :
    Shows { b with forest := b.forest.add q } (calls ++ [c]) where
  parents := by
    rw [StopCall.made_snoc, hmade, ← h.parents]
    exact List.map_append
  below n p hp := by
    rw [StopCall.parent_eq_some_iff, StopCall.made_snoc, hmade] at hp
    rcases Nat.lt_or_ge n (StopCall.made calls).length with hn | hn
    · rw [List.getElem?_append_left hn] at hp
      exact h.below n p (StopCall.parent_eq_some_iff.2 hp)
    · rw [List.getElem?_append_right hn, List.getElem?_singleton] at hp
      obtain ⟨-, hp⟩ := Option.ite_none_right_eq_some.1 hp
      exact Nat.lt_of_lt_of_le (h.length_sources ▸ hq p (Option.some.inj hp)) hn
  length := by rw [StopCall.taken_snoc, hc, h.length, Nat.add_zero]
  tokens := h.tokens_snoc hc

/-- A source is observed. -/
theorem Shows.watch (h : Shows b calls) (hmade : StopCall.made [c] = [])
    (hc : StopCall.taken [c] = 1)
    (hs : ∀ n, s = n ↔ c = .token n ∨ ∃ u, c = .clone u ∧ StopCall.TokenOf calls u n) :
    Shows { b with tokens := b.tokens ++ [s] } (calls ++ [c]) where
  parents := by rw [StopCall.made_snoc, hmade, List.append_nil, h.parents]
  below n p hp := by
    rw [StopCall.parent, StopCall.made_snoc, hmade, List.append_nil] at hp
    exact h.below n p hp
  length := by rw [StopCall.taken_snoc, hc, ← h.length, List.length_append]; rfl
  tokens t n := by
    rw [StopCall.tokenOf_snoc_iff, ← h.tokens, ← hs, ← h.length]
    dsimp only
    rw [List.getElem?_append]
    split
    · rename_i ht
      exact (or_iff_left fun hlast => Nat.ne_of_lt ht hlast.1).symm
    · rename_i ht
      rw [List.getElem?_eq_none (Nat.le_of_not_lt ht), List.getElem?_singleton,
        Option.ite_none_right_eq_some, Option.some_inj]
      simp only [reduceCtorEq, false_or]
      omega

/-- A source fires or is dropped. -/
theorem Shows.touch (h : Shows b calls) (hmade : StopCall.made [c] = [])
    (hc : StopCall.taken [c] = 0) {forest : StopForest}
    (hparents : forest.sources.map (·.parent) = b.forest.sources.map (·.parent)) :
    Shows { b with forest } (calls ++ [c]) where
  parents := by rw [StopCall.made_snoc, hmade, List.append_nil, ← h.parents]; exact hparents
  below n p hp := by
    rw [StopCall.parent, StopCall.made_snoc, hmade, List.append_nil] at hp
    exact h.below n p hp
  length := by rw [StopCall.taken_snoc, hc, Nat.add_zero, h.length]
  tokens := h.tokens_snoc hc

/-- **One call.** -/
theorem shows_call (h : Shows b calls) (hcall : b.call? c = some b') :
    Shows b' (calls ++ [c]) := by
  unfold call? at hcall
  cases c with
  | new =>
      obtain rfl := Option.some.inj hcall
      exact h.add rfl rfl fun p hp => by cases hp
  | child s =>
      obtain ⟨hs, heq⟩ := Option.ite_none_right_eq_some.1 hcall
      obtain rfl := Option.some.inj heq
      exact h.add rfl rfl fun p hp => Option.some.inj hp ▸ StopForest.lt_of_isHeld hs
  | token s =>
      obtain ⟨-, heq⟩ := Option.ite_none_right_eq_some.1 hcall
      obtain rfl := Option.some.inj heq
      refine h.watch rfl rfl fun n => ?_
      simp only [StopCall.token.injEq, reduceCtorEq, false_and, exists_false, or_false]
  | clone u =>
      obtain ⟨s, hs, rfl⟩ := Option.map_eq_some_iff.1 hcall
      refine h.watch rfl rfl fun n => ?_
      simp only [reduceCtorEq, false_or, StopCall.clone.injEq, exists_eq_left', ← h.tokens, hs,
        Option.some_inj]
  | stop s r =>
      obtain ⟨-, heq⟩ := Option.ite_none_right_eq_some.1 hcall
      obtain rfl := Option.some.inj heq
      exact h.touch rfl rfl (b.forest.map_parent_stop s r)
  | drop s =>
      obtain ⟨-, heq⟩ := Option.ite_none_right_eq_some.1 hcall
      obtain rfl := Option.some.inj heq
      exact h.touch rfl rfl (b.forest.map_parent_drop s)

/-- **The calls.** -/
theorem shows_run (hrun : run? {} calls = some b) : Shows b calls := by
  induction calls using List.reverseRecOn generalizing b with
  | nil =>
      obtain rfl := Option.some.inj hrun
      exact shows_empty
  | append_singleton calls c ih =>
      rw [run?_snoc] at hrun
      obtain ⟨b₀, hbefore, hcall⟩ := Option.bind_eq_some_iff.1 hrun
      exact shows_call (ih hbefore) hcall

/-! ## Ancestors and siblings -/

theorem Shows.lt_of_above (h : Shows b calls) (habove : StopCall.Above calls m s) : m < s := by
  induction habove with
  | single hp => exact h.below _ _ hp
  | tail _ hp ih => exact Nat.lt_trans ih (h.below _ _ hp)

/-- A stop that was called was called on a source that was held. -/
theorem run?_stop {r : StopReason} (hrun : run? {} (before ++ .stop s r :: after) = some b) :
    ∃ b₀, run? {} before = some b₀ ∧ b₀.forest.isHeld s = true := by
  unfold run? at hrun
  rw [List.foldlM_append] at hrun
  obtain ⟨b₀, hbefore, hafter⟩ := Option.bind_eq_some_iff.1 hrun
  obtain ⟨_, hcall, -⟩ := Option.bind_eq_some_iff.1 (List.foldlM_cons (m := Option) ▸ hafter)
  exact ⟨b₀, hbefore, (Option.ite_none_right_eq_some.1 hcall).1⟩

/-- **The reach of a stop.** After any calls a source reads the first reason that it was given,
else the first that its parent was given, so that it is stopped just if one of the two was; and
each of its tokens reads what it reads. Of the stops of a source the first is told that it was.
A stop changes what the source and its children read, and no other, its siblings and all above
it included. -/
theorem reach_of_run (hrun : run? {} calls = some b) :
    (∀ n, b.forest.reason n = (StopCall.firstReason calls n).or
      ((StopCall.parent calls n).bind (StopCall.firstReason calls))) ∧
    (∀ n, b.forest.reason n ≠ none ↔ (∃ r, .stop n r ∈ calls) ∨
      ∃ p, StopCall.parent calls n = some p ∧ ∃ r, .stop p r ∈ calls) ∧
    (∀ t n, StopCall.TokenOf calls t n → b.read t = b.forest.reason n) ∧
    ∀ before s r after, calls = before ++ .stop s r :: after →
      ∃ b₀, run? {} before = some b₀ ∧
        ((b₀.forest.stop s r).1 = true ↔ ∀ r', .stop s r' ∉ before) ∧
        (∀ m, m ≠ s → StopCall.parent before m ≠ some s →
          (b₀.forest.stop s r).2.reason m = b₀.forest.reason m) ∧
        (∀ m, StopCall.Above before m s →
          (b₀.forest.stop s r).2.reason m = b₀.forest.reason m) ∧
        ∀ m, m ≠ s → StopCall.parent before m = StopCall.parent before s →
          (b₀.forest.stop s r).2.reason m = b₀.forest.reason m := by
  have hreason : ∀ n, b.forest.reason n = (StopCall.firstReason calls n).or
      ((StopCall.parent calls n).bind (StopCall.firstReason calls)) := fun n => by
    rw [(recalls_run hrun).reason_eq, (shows_run hrun).parent_eq]
  refine ⟨hreason, fun n => ?_, fun t n ht => ?_, ?_⟩
  · rw [hreason, Ne, Option.or_eq_none_iff, not_and_or, ← Ne, StopCall.firstReason_ne_none_iff]
    refine or_congr_right ?_
    cases StopCall.parent calls n with
    | none => simp
    | some p => simpa using StopCall.firstReason_ne_none_iff
  · unfold read
    rw [((shows_run hrun).tokens t n).2 ht, Option.bind_some]
  · rintro before s r after rfl
    obtain ⟨b₀, hbefore, hheld⟩ := run?_stop hrun
    have hshows := shows_run hbefore
    have hother : ∀ m, m ≠ s → StopCall.parent before m ≠ some s →
        (b₀.forest.stop s r).2.reason m = b₀.forest.reason m := fun m hm hparent =>
      StopForest.reason_stop_of_ne r hm (hshows.parent_eq m ▸ hparent)
    refine ⟨b₀, hbefore, ?_, hother, fun m habove => ?_, fun m hm hsibling => ?_⟩
    · rw [StopForest.stop_fst_iff r (StopForest.lt_of_isHeld hheld),
        (recalls_run hbefore).signal_eq, ← not_exists, ← StopCall.firstReason_ne_none_iff,
        not_ne_iff]
    · have hlt := hshows.lt_of_above habove
      exact hother m (Nat.ne_of_lt hlt) fun hp => Nat.lt_asymm hlt (hshows.below m s hp)
    · exact hother m hm fun hp => Nat.lt_irrefl s (hshows.below s s (hsibling ▸ hp))

/-- A child of a child, with a token and a copy of it, is below a source that is stopped. -/
def threeLevels (top : Nat) (r : StopReason) : List StopCall :=
  [.new, .child 0, .child 1, .token 2, .clone 0, .stop top r]

theorem tokenOf_threeLevels (top : Nat) (r : StopReason) :
    StopCall.TokenOf (threeLevels top r) 0 2 ∧ StopCall.TokenOf (threeLevels top r) 1 2 := by
  have htoken := @StopCall.TokenOf.taken [.new, .child 0, .child 1] 2
  exact ⟨htoken.later.later, htoken.copied.later⟩

theorem reach_of_run_threeLevels : ∃ b, run? {} (threeLevels 1 .ruleDeleted) = some b ∧
    b.forest.reason 0 = none ∧ b.forest.reason 1 = some .ruleDeleted ∧
      b.forest.reason 2 = some .ruleDeleted ∧ b.read 1 = some .ruleDeleted := by
  obtain ⟨b, hrun⟩ : ∃ b, run? {} (threeLevels 1 .ruleDeleted) = some b := ⟨_, rfl⟩
  obtain ⟨hreason, -, htoken, -⟩ := reach_of_run hrun
  have hcopy := htoken 1 2 (tokenOf_threeLevels 1 .ruleDeleted).2
  exact ⟨b, hrun, hreason 0, hreason 1, hreason 2, hcopy.trans (hreason 2)⟩

/-- A stop at the top of three levels does not get to the bottom: the root was stopped and is
above the child's child, and neither this nor its token reads a reason. -/
theorem reason_of_stopped_root : ∃ b, run? {} (threeLevels 0 .shutdown) = some b ∧
    StopCall.Above (threeLevels 0 .shutdown) 0 2 ∧
      StopCall.TokenOf (threeLevels 0 .shutdown) 0 2 ∧ b.forest.reason 1 = some .shutdown ∧
      b.forest.reason 2 = none ∧ b.read 0 = none :=
  have habove : StopCall.Above (threeLevels 0 .shutdown) 0 2 := .tail (.single (b := 1) rfl) rfl
  ⟨_, rfl, habove, (tokenOf_threeLevels 0 .shutdown).1, rfl, rfl, rfl⟩

end StopBoard

end Vigil
