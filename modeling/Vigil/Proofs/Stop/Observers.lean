import Mathlib.Data.List.Induction
import Vigil.Proofs.Mailbox.Desk
import Vigil.Stop

/-!
# Two looks at a stop

An observer can read the reason to stop, or wait for it. It reads the first reason that its
own source was given, else the first that the parent was given. Waiting yields the same, except
where it has lapsed: the observer's own source has not fired, and that or the parent was dropped
before it fired. Then waiting ends with a shutdown, whatever there is to read
(`StopBoard.await_of_run`).
-/

namespace Vigil

/-! ## What a call does to the sources -/

namespace StopForest

variable {f : StopForest} {n s : Nat}

theorem isHeld_iff : f.isHeld n = true ↔ ∃ e, f.sources[n]? = some e ∧ e.held = true := by
  unfold isHeld
  cases f.sources[n]? with
  | none => simp
  | some e => simp

theorem lt_of_isHeld (h : f.isHeld n = true) : n < f.sources.length := by
  obtain ⟨e, he, -⟩ := isHeld_iff.1 h
  exact (List.getElem?_eq_some_iff.1 he).1

theorem getElem?_add (f : StopForest) (p : Option Nat) (n : Nat) : (f.add p).sources[n]? =
    if n = f.sources.length then some { parent := p } else f.sources[n]? := by
  unfold add
  rcases Nat.lt_trichotomy n f.sources.length with hn | hn | hn
  · rw [List.getElem?_append_left hn, if_neg (Nat.ne_of_lt hn)]
  · rw [if_pos hn, hn, List.getElem?_concat_length]
  · rw [if_neg (Nat.ne_of_gt hn), List.getElem?_eq_none (Nat.le_of_lt hn), List.getElem?_eq_none]
    rw [List.length_append]
    exact hn

theorem length_add (f : StopForest) (p : Option Nat) :
    (f.add p).sources.length = f.sources.length + 1 := List.length_append

/-- A source keeps the first reason that it is given. -/
theorem getElem?_stop (f : StopForest) (s : Nat) (r : StopReason) (n : Nat) :
    (f.stop s r).2.sources[n]? = f.sources[n]?.map fun e =>
      if s = n then { e with reason := e.reason.or (some r) } else e := by
  unfold stop
  by_cases hn : s = n
  · subst hn
    cases hs : f.sources[s]? with
    | none => exact hs
    | some e =>
        rw [Option.map_some, if_pos rfl]
        dsimp only
        cases hr : e.reason with
        | none => exact List.getElem?_set_self (List.getElem?_eq_some_iff.1 hs).1
        | some r' =>
            show f.sources[s]? = some { e with reason := some r' }
            rw [hs, ← hr]
  · have hother : ∀ e : StopSource, (f.sources.set s e)[n]? = f.sources[n]? :=
      fun e => List.getElem?_set_ne hn
    simp only [if_neg hn, Option.map_id']
    split
    · split
      · rfl
      · exact hother _
    · rfl

theorem length_stop (f : StopForest) (s : Nat) (r : StopReason) :
    (f.stop s r).2.sources.length = f.sources.length := by
  unfold stop
  split
  · split
    · rfl
    · exact List.length_set
  · rfl

theorem getElem?_drop (f : StopForest) (s n : Nat) : (f.drop s).sources[n]? =
    f.sources[n]?.map fun e => if s = n then { e with held := false } else e :=
  List.getElem?_modify ..

theorem length_drop (f : StopForest) (s : Nat) :
    (f.drop s).sources.length = f.sources.length := List.length_modify ..

end StopForest

/-! ## Calls on stop sources -/

inductive StopCall where
  | new
  | child (source : Nat)
  | token (source : Nat)
  | clone (token : Nat)
  | stop (source : Nat) (r : StopReason)
  | drop (source : Nat)
deriving DecidableEq

/-- The first reason that source `n` was given. -/
def StopCall.firstReason (calls : List StopCall) (n : Nat) : Option StopReason :=
  calls.findSome? fun
    | stop m r => if m = n then some r else none
    | _ => none

/-- Stop sources, and the source that each observer watches. -/
structure StopBoard where
  forest : StopForest := {}
  tokens : List Nat := []
deriving DecidableEq

namespace StopBoard

/-- One call. A source has to be held for it, and a token has to be there. -/
def call? (b : StopBoard) : StopCall → Option StopBoard
  | .new => some { b with forest := b.forest.add none }
  | .child s => if b.forest.isHeld s then some { b with forest := b.forest.add (some s) } else none
  | .token s => if b.forest.isHeld s then some { b with tokens := b.tokens ++ [s] } else none
  | .clone t => b.tokens[t]?.map fun s => { b with tokens := b.tokens ++ [s] }
  | .stop s r => if b.forest.isHeld s then some { b with forest := (b.forest.stop s r).2 } else none
  | .drop s => if b.forest.isHeld s then some { b with forest := b.forest.drop s } else none

def run? (b : StopBoard) (calls : List StopCall) : Option StopBoard := calls.foldlM call? b

theorem run?_snoc (b : StopBoard) (calls : List StopCall) (c : StopCall) :
    b.run? (calls ++ [c]) = (b.run? calls).bind (·.call? c) :=
  Desk.foldlM_concat call? b calls c

/-- What source `n` keeps of the calls: the first reason, and whether it was dropped. -/
structure Keeps (e : StopSource) (calls : List StopCall) (n : Nat) : Prop where
  reason : e.reason = StopCall.firstReason calls n
  held : e.held = true ↔ .drop n ∉ calls

/-- What a board keeps of the calls that led to it. -/
structure Recalls (b : StopBoard) (calls : List StopCall) : Prop where
  source : ∀ n e, b.forest.sources[n]? = some e → Keeps e calls n
  parent : ∀ (n : Nat) (e : StopSource) (p : Nat), b.forest.sources[n]? = some e →
    e.parent = some p → p < b.forest.sources.length
  /-- No call was for a source that was not there. -/
  untouched : ∀ n, b.forest.sources.length ≤ n →
    StopCall.firstReason calls n = none ∧ .drop n ∉ calls
  watched : ∀ n ∈ b.tokens, n < b.forest.sources.length

theorem recalls_empty : Recalls {} [] where
  source _ _ he := by cases he
  parent _ _ _ he := by cases he
  untouched _ _ := ⟨rfl, List.not_mem_nil⟩
  watched _ hn := absurd hn List.not_mem_nil

theorem firstReason_snoc (calls : List StopCall) (c : StopCall) (n : Nat) :
    StopCall.firstReason (calls ++ [c]) n =
      (StopCall.firstReason calls n).or (StopCall.firstReason [c] n) :=
  List.findSome?_append

theorem drop_not_mem_snoc {calls : List StopCall} {c : StopCall} {n : Nat} :
    .drop n ∉ calls ++ [c] ↔ .drop n ∉ calls ∧ c ≠ .drop n := by
  rw [List.mem_append, List.mem_singleton, not_or, eq_comm]

variable {b b' : StopBoard} {calls : List StopCall} {c : StopCall} {n s : Nat}

theorem Keeps.snoc {e e' : StopSource} (h : Keeps e calls n)
    (hreason : e'.reason = e.reason.or (StopCall.firstReason [c] n))
    (hheld : e'.held = true ↔ e.held = true ∧ c ≠ .drop n) : Keeps e' (calls ++ [c]) n where
  reason := by rw [firstReason_snoc, hreason, h.reason]
  held := by rw [drop_not_mem_snoc, hheld, h.held]

/-- The call neither fires nor drops a source. -/
structure IsMild (c : StopCall) : Prop where
  reason : ∀ n, StopCall.firstReason [c] n = none
  drop : ∀ n, c ≠ .drop n

theorem Keeps.mild {e : StopSource} (h : Keeps e calls n) (hc : IsMild c) :
    Keeps e (calls ++ [c]) n :=
  h.snoc (by rw [hc.reason, Option.or_none]) (iff_self_and.2 fun _ => hc.drop n)

theorem Recalls.untouched_snoc (h : Recalls b calls) (hn : b.forest.sources.length ≤ n)
    (hc : StopCall.firstReason [c] n = none ∧ c ≠ .drop n) :
    StopCall.firstReason (calls ++ [c]) n = none ∧ .drop n ∉ calls ++ [c] := by
  obtain ⟨hreason, hdrop⟩ := h.untouched n hn
  rw [firstReason_snoc, drop_not_mem_snoc, hreason, hc.1]
  exact ⟨rfl, hdrop, hc.2⟩

/-- A source is added. -/
theorem Recalls.add (h : Recalls b calls) (hc : IsMild c) {p : Option Nat}
    (hp : ∀ q, p = some q → q < b.forest.sources.length) :
    Recalls { b with forest := b.forest.add p } (calls ++ [c]) where
  source n e he := by
    dsimp only at he
    rw [StopForest.getElem?_add] at he
    split at he
    · rename_i hn
      obtain rfl := Option.some.inj he
      obtain ⟨hreason, hdrop⟩ := h.untouched_snoc (Nat.le_of_eq hn.symm) ⟨hc.reason n, hc.drop n⟩
      exact ⟨hreason.symm, iff_of_true rfl hdrop⟩
    · exact (h.source n e he).mild hc
  parent n e q he hq := by
    dsimp only at he ⊢
    rw [StopForest.length_add]
    rw [StopForest.getElem?_add] at he
    split at he
    · obtain rfl := Option.some.inj he
      exact Nat.lt_succ_of_lt (hp q hq)
    · exact Nat.lt_succ_of_lt (h.parent n e q he hq)
  untouched n hn := by
    dsimp only at hn
    rw [StopForest.length_add] at hn
    exact h.untouched_snoc (Nat.le_of_succ_le hn) ⟨hc.reason n, hc.drop n⟩
  watched n hn := by
    dsimp only
    rw [StopForest.length_add]
    exact Nat.lt_succ_of_lt (h.watched n hn)

/-- A source is observed. -/
theorem Recalls.watch (h : Recalls b calls) (hc : IsMild c) (hs : s < b.forest.sources.length) :
    Recalls { b with tokens := b.tokens ++ [s] } (calls ++ [c]) where
  source n e he := (h.source n e he).mild hc
  parent := h.parent
  untouched n hn := h.untouched_snoc hn ⟨hc.reason n, hc.drop n⟩
  watched n hn := by
    rcases List.mem_append.1 hn with hn | hn
    · exact h.watched n hn
    · exact List.mem_singleton.1 hn ▸ hs

/-- A source fires or is dropped. -/
theorem Recalls.touch (h : Recalls b calls) (hs : s < b.forest.sources.length)
    (hc : ∀ n, n ≠ s → StopCall.firstReason [c] n = none ∧ c ≠ .drop n) {forest : StopForest}
    {f : StopSource → StopSource} (hlength : forest.sources.length = b.forest.sources.length)
    (hsources : ∀ n, forest.sources[n]? =
      b.forest.sources[n]?.map fun e => if s = n then f e else e)
    (hf : ∀ e, Keeps e calls s → Keeps (f e) (calls ++ [c]) s)
    (hparent : ∀ e, (f e).parent = e.parent) :
    Recalls { b with forest } (calls ++ [c]) where
  source n e he := by
    dsimp only at he
    rw [hsources, Option.map_eq_some_iff] at he
    obtain ⟨e', he', rfl⟩ := he
    by_cases hn : s = n
    · subst hn
      rw [if_pos rfl]
      exact hf e' (h.source s e' he')
    · rw [if_neg hn]
      obtain ⟨hreason, hdrop⟩ := hc n (Ne.symm hn)
      exact (h.source n e' he').snoc (by rw [hreason, Option.or_none])
        (iff_self_and.2 fun _ => hdrop)
  parent n e q he hq := by
    dsimp only at he ⊢
    rw [hsources, Option.map_eq_some_iff] at he
    obtain ⟨e', he', rfl⟩ := he
    rw [hlength]
    refine h.parent n e' q he' ?_
    split at hq
    · rwa [hparent] at hq
    · exact hq
  untouched n hn := by
    dsimp only at hn
    rw [hlength] at hn
    exact h.untouched_snoc hn (hc n (Nat.ne_of_gt (Nat.lt_of_lt_of_le hs hn)))
  watched n hn := by
    dsimp only
    rw [hlength]
    exact h.watched n hn

/-- **One call.** -/
theorem recalls_call (h : Recalls b calls) (hcall : b.call? c = some b') :
    Recalls b' (calls ++ [c]) := by
  unfold call? at hcall
  cases c with
  | new =>
      obtain rfl := Option.some.inj hcall
      exact h.add ⟨fun _ => rfl, fun _ hc => by cases hc⟩ fun q hq => by cases hq
  | child s =>
      obtain ⟨hs, heq⟩ := Option.ite_none_right_eq_some.1 hcall
      obtain rfl := Option.some.inj heq
      exact h.add ⟨fun _ => rfl, fun _ hc => by cases hc⟩ fun q hq =>
        Option.some.inj hq ▸ StopForest.lt_of_isHeld hs
  | token s =>
      obtain ⟨hs, heq⟩ := Option.ite_none_right_eq_some.1 hcall
      obtain rfl := Option.some.inj heq
      exact h.watch ⟨fun _ => rfl, fun _ hc => by cases hc⟩ (StopForest.lt_of_isHeld hs)
  | clone t =>
      obtain ⟨s, hs, rfl⟩ := Option.map_eq_some_iff.1 hcall
      exact h.watch ⟨fun _ => rfl, fun _ hc => by cases hc⟩
        (h.watched s (List.mem_of_getElem? hs))
  | stop s r =>
      obtain ⟨hs, heq⟩ := Option.ite_none_right_eq_some.1 hcall
      obtain rfl := Option.some.inj heq
      refine h.touch (StopForest.lt_of_isHeld hs) (fun n hn => ⟨?_, fun hc => by cases hc⟩)
        (b.forest.length_stop s r) (b.forest.getElem?_stop s r) (fun e he => ?_) fun _ => rfl
      · simp [StopCall.firstReason, Ne.symm hn]
      · exact he.snoc (by simp [StopCall.firstReason]) (by simp)
  | drop s =>
      obtain ⟨hs, heq⟩ := Option.ite_none_right_eq_some.1 hcall
      obtain rfl := Option.some.inj heq
      refine h.touch (StopForest.lt_of_isHeld hs) (fun n hn => ⟨rfl, ?_⟩)
        (b.forest.length_drop s) (b.forest.getElem?_drop s) (fun e he => ?_) fun _ => rfl
      · exact fun hc => hn (StopCall.drop.inj hc).symm
      · exact he.snoc (by simp [StopCall.firstReason]) (by simp)

/-- **The calls.** -/
theorem recalls_run (hrun : run? {} calls = some b) : Recalls b calls := by
  induction calls using List.reverseRecOn generalizing b with
  | nil =>
      obtain rfl := Option.some.inj hrun
      exact recalls_empty
  | append_singleton calls c ih =>
      rw [run?_snoc] at hrun
      obtain ⟨before, hbefore, hcall⟩ := Option.bind_eq_some_iff.1 hrun
      exact recalls_call (ih hbefore) hcall

/-! ## What an observer sees -/

theorem Recalls.signal_eq (h : Recalls b calls) (n : Nat) :
    b.forest.signal n = StopCall.firstReason calls n := by
  unfold StopForest.signal
  cases he : b.forest.sources[n]? with
  | none => exact (h.untouched n (List.getElem?_eq_none_iff.1 he)).1.symm
  | some e => exact (h.source n e he).reason

/-- Source `n` was dropped before it fired. -/
def DroppedUnfired (calls : List StopCall) (n : Nat) : Prop :=
  StopCall.firstReason calls n = none ∧ .drop n ∈ calls

theorem Recalls.awaitSignal_of_dropped (h : Recalls b calls) (hn : DroppedUnfired calls n) :
    b.forest.awaitSignal n = some .shutdown := by
  obtain ⟨hreason, hdrop⟩ := hn
  unfold StopForest.awaitSignal
  rw [h.signal_eq, hreason, Option.none_or, if_neg]
  intro hheld
  obtain ⟨e, he, hheld⟩ := StopForest.isHeld_iff.1 hheld
  exact (h.source n e he).held.1 hheld hdrop

theorem Recalls.awaitSignal_of_not_dropped (h : Recalls b calls) (hn : ¬ DroppedUnfired calls n)
    (hlt : n < b.forest.sources.length) :
    b.forest.awaitSignal n = StopCall.firstReason calls n := by
  unfold StopForest.awaitSignal
  rw [h.signal_eq]
  cases hreason : StopCall.firstReason calls n with
  | some r => rfl
  | none =>
      have he := List.getElem?_eq_getElem hlt
      rw [Option.none_or, if_pos]
      exact StopForest.isHeld_iff.2
        ⟨_, he, (h.source n _ he).held.2 fun hdrop => hn ⟨hreason, hdrop⟩⟩

/-- There is nothing left that `n` could wait for: it has not fired, and it or its parent was
dropped before it fired. -/
def Lapsed (b : StopBoard) (calls : List StopCall) (n : Nat) : Prop :=
  StopCall.firstReason calls n = none ∧
    (.drop n ∈ calls ∨ ∃ p, b.forest.parent n = some p ∧ DroppedUnfired calls p)

theorem Recalls.lt_of_parent (h : Recalls b calls) {p : Nat} (hp : b.forest.parent n = some p) :
    p < b.forest.sources.length := by
  obtain ⟨e, he, hparent⟩ := Option.bind_eq_some_iff.1 hp
  exact h.parent n e p he hparent

theorem Recalls.reason_eq (h : Recalls b calls) (n : Nat) :
    b.forest.reason n = (StopCall.firstReason calls n).or
      ((b.forest.parent n).bind (StopCall.firstReason calls)) := by
  unfold StopForest.reason
  rw [h.signal_eq, funext h.signal_eq]

theorem Recalls.await_of_lapsed (h : Recalls b calls) (hlapsed : b.Lapsed calls n)
    (hn : n < b.forest.sources.length) : b.forest.await n = some .shutdown := by
  obtain ⟨hreason, hdropped⟩ := hlapsed
  unfold StopForest.await
  by_cases hown : .drop n ∈ calls
  · rw [h.awaitSignal_of_dropped ⟨hreason, hown⟩]
    rfl
  · obtain ⟨p, hp, hparent⟩ := hdropped.resolve_left hown
    rw [h.awaitSignal_of_not_dropped (fun hn => hown hn.2) hn, hreason, Option.none_or, hp]
    exact h.awaitSignal_of_dropped hparent

theorem Recalls.await_of_not_lapsed (h : Recalls b calls) (hopen : ¬ b.Lapsed calls n)
    (hn : n < b.forest.sources.length) : b.forest.await n = b.forest.reason n := by
  rw [h.reason_eq]
  unfold StopForest.await
  have hown : ¬ DroppedUnfired calls n := fun hown => hopen ⟨hown.1, Or.inl hown.2⟩
  rw [h.awaitSignal_of_not_dropped hown hn]
  cases hreason : StopCall.firstReason calls n with
  | some r => rfl
  | none =>
      rw [Option.none_or, Option.none_or]
      cases hp : b.forest.parent n with
      | none => rfl
      | some p =>
          exact h.awaitSignal_of_not_dropped
            (fun hparent => hopen ⟨hreason, Or.inr ⟨p, hp, hparent⟩⟩) (h.lt_of_parent hp)

/-- **Waiting against reading.** After any calls an observer that has something to wait for is
told by waiting what it reads, and has to wait on where it reads nothing. Where waiting has
lapsed it is told of a shutdown, whatever it reads. -/
theorem await_of_run (hrun : run? {} calls = some b) (hn : n ∈ b.tokens) :
    b.forest.reason n = (StopCall.firstReason calls n).or
        ((b.forest.parent n).bind (StopCall.firstReason calls)) ∧
      (¬ b.Lapsed calls n → b.forest.await n = b.forest.reason n) ∧
      (b.Lapsed calls n → b.forest.await n = some .shutdown) := by
  have h := recalls_run hrun
  have hlt := h.watched n hn
  exact ⟨h.reason_eq n, fun hopen => h.await_of_not_lapsed hopen hlt,
    fun hlapsed => h.await_of_lapsed hlapsed hlt⟩

/-- Two children of a source are dropped, one after it has fired. -/
def droppedChildren : List StopCall :=
  [.new, .child 0, .child 0, .token 1, .token 2, .stop 1 .ruleDeleted, .drop 1, .drop 2]

theorem await_of_run_droppedChildren :
    ∃ b, run? {} droppedChildren = some b ∧ (1 ∈ b.tokens ∧ 2 ∈ b.tokens) ∧
      (¬ b.Lapsed droppedChildren 1 ∧ b.forest.await 1 = some .ruleDeleted) ∧
      b.Lapsed droppedChildren 2 ∧ b.forest.await 2 = some .shutdown := by
  have hfired : ∀ b : StopBoard, ¬ b.Lapsed droppedChildren 1 := fun b hlapsed => by
    cases hlapsed.1
  have hdropped : ∀ b : StopBoard, b.Lapsed droppedChildren 2 := fun b =>
    ⟨rfl, Or.inl (by decide)⟩
  obtain ⟨b, hrun, h1, h2⟩ : ∃ b, run? {} droppedChildren = some b ∧ 1 ∈ b.tokens ∧ 2 ∈ b.tokens :=
    ⟨_, rfl, by decide, by decide⟩
  refine ⟨b, hrun, ⟨h1, h2⟩, ⟨hfired b, ?_⟩, hdropped b, ?_⟩
  · obtain ⟨hreason, hwaits, -⟩ := await_of_run hrun h1
    exact (hwaits (hfired b)).trans hreason
  · exact (await_of_run hrun h2).2.2 (hdropped b)

/-- The two looks differ: of a source that was dropped before it fired nothing can be read, and
it keeps whoever waits from the reason of the parent. -/
theorem dropped_unfired_unread :
    (∃ b, run? {} [.new, .token 0, .drop 0] = some b ∧ 0 ∈ b.tokens ∧
      b.forest.await 0 = some .shutdown ∧ b.forest.reason 0 = none) ∧
    ∃ b, run? {} [.new, .child 0, .token 1, .stop 0 .ruleDeleted, .drop 1] = some b ∧
      1 ∈ b.tokens ∧ b.forest.await 1 = some .shutdown ∧
      b.forest.reason 1 = some .ruleDeleted :=
  ⟨⟨_, rfl, by decide⟩, ⟨_, rfl, by decide⟩⟩

end StopBoard

end Vigil
