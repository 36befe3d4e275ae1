import Vigil.Proofs.Cache.Confined
import Vigil.Proofs.Store.OpenCalls

/-!
# Rules side by side

Calls on the instances that only delete from the store are as good as made one after the other,
in the order in which they began, whatever the store does in between (`Traffic.in_order`): what
is yet to be deleted may as well be deleted at once. Calls for different rules may also begin in
any order (`Shared.same_of_only`), and what those for one rule return and leave of it does not
depend on the others (`Shared.Agree.replies_only`). So rules do not interfere
(`Traffic.rules_apart`).
-/

namespace Vigil

open Shared (Same same_refl)

/-! ## Deletions in any order -/

namespace Store

theorem delete_comm (s : Store) (i j : Instance) :
    (s.delete i.org i.ruleUid i.labels.id).delete j.org j.ruleUid j.labels.id =
      (s.delete j.org j.ruleUid j.labels.id).delete i.org i.ruleUid i.labels.id := by
  unfold delete
  dsimp only
  rw [List.filter_filter, List.filter_filter]
  simp only [Bool.and_comm]

theorem deleteAll_append (s : Store) (is js : List Instance) :
    s.deleteAll (is ++ js) = (s.deleteAll is).deleteAll js := List.foldl_append

theorem deleteAll_perm (s : Store) {is js : List Instance} (h : is.Perm js) :
    s.deleteAll is = s.deleteAll js :=
  h.foldl_eq' (fun i _ j _ s => s.delete_comm i j) s

end Store

/-! ## A call for one rule -/

namespace StateCall

/-- The call is on the instances of the rule and on no other. -/
def IsFor (c : StateCall) (k : RuleKey) : Prop :=
  match c with
  | .process r _ _ => r.key = k
  | .markSent sent => ∀ i ∈ sent, i.ruleKey = k
  | .reset k' _ => k' = k
  | .setClock _ => False
  | .persist => False

namespace IsFor

variable {c : StateCall} {k : RuleKey}

theorem confined (h : c.IsFor k) (settings : StateSettings) (now : Moment) :
    Cache.Confined k (c.enter settings now) := by
  cases c with
  | setClock t => exact h.elim
  | process r vs extra =>
      cases (h : r.key = k)
      exact (Cache.Confined.round settings now r vs extra).map Due.ofRound
  | markSent sent => exact (Cache.Confined.markSent h).map fun _ => ({} : Due)
  | persist => exact h.elim
  | reset k' rule =>
      cases (h : k' = k)
      exact (Cache.Confined.removeRule k).map Due.ofRemoved

/-- Nothing is saved. -/
theorem saving_eq (h : c.IsFor k) (settings : StateSettings) (now : Moment) (cache : Cache) :
    (c.enter settings now cache).1.saving = [] := by
  refine List.eq_nil_iff_forall_not_mem.2 fun i hi => ?_
  obtain ⟨rfl, -⟩ := mem_saving_enter hi
  exact h

theorem clock_eq (h : c.IsFor k) (now : Moment) : c.clock now = now := by
  cases c with
  | setClock t => exact h.elim
  | _ => rfl

/-- A whole call, without what it does not do. -/
theorem call_frame (h : c.IsFor k) (d : Shared) :
    Same (d.call c) { d with
      cache := (c.enter d.state d.clock d.cache).2
      store := d.store.deleteAll (c.enter d.state d.clock d.cache).1.dropping } := by
  have hcall := (d.call_frame c).2
  rw [h.saving_eq, h.clock_eq] at hcall
  exact hcall

end IsFor

end StateCall

namespace Shared

variable {d d' : Shared}

theorem Same.call (h : Same d d') (c : StateCall) :
    d.replyTo c = d'.replyTo c ∧ Same (d.call c) (d'.call c) := by
  obtain ⟨hcache, hstore, hstate, hclock⟩ := h
  obtain ⟨hreply, hcall⟩ := d.call_frame c
  obtain ⟨hreply', hcall'⟩ := d'.call_frame c
  rw [← hcache, ← hstate, ← hclock] at hreply' hcall'
  refine ⟨hreply.trans hreply'.symm, hcall.trans (Same.trans ?_ hcall'.symm)⟩
  exact ⟨rfl, by rw [hstore], rfl, rfl⟩

theorem Same.calls (h : Same d d') (cs : List StateCall) : Same (d.calls cs) (d'.calls cs) := by
  induction cs generalizing d d' with
  | nil => exact h
  | cons c cs ih => exact ih (h.call c).2

theorem calls_append (d : Shared) (cs cs' : List StateCall) :
    d.calls (cs ++ cs') = (d.calls cs).calls cs' := List.foldl_append

theorem length_replies (d : Shared) (cs : List StateCall) : (d.replies cs).length = cs.length := by
  induction cs generalizing d with
  | nil => rfl
  | cons c cs ih => exact congrArg Nat.succ (ih (d.call c))

theorem replies_append (d : Shared) (cs cs' : List StateCall) :
    d.replies (cs ++ cs') = d.replies cs ++ (d.calls cs).replies cs' := by
  induction cs generalizing d with
  | nil => rfl
  | cons c cs ih => exact congrArg (d.replyTo c :: ·) (ih (d.call c))

end Shared

/-! ## In the order of their beginning -/

namespace Traffic

variable {ι : Type}

/-- Calls that only delete are as good as made one after the other, when what they have yet to
delete is taken as deleted. -/
structure InOrder (d : Shared) (cs : List (ι × StateCall)) (t : Traffic ι) : Prop where
  shared : Same { t.shared with store := t.shared.store.deleteAll t.dropping }
    (d.calls (cs.map Prod.snd))
  replies : t.replies = (cs.map Prod.fst).zip (d.replies (cs.map Prod.snd))
  saving : ∀ e ∈ t.calls, e.2.due.saving = []

variable {d : Shared} {cs : List (ι × StateCall)} {t : Traffic ι}

theorem InOrder.begin (h : InOrder d cs t) (caller : ι) {c : StateCall} {k : RuleKey}
    (hc : c.IsFor k) : InOrder d (cs ++ [(caller, c)]) (t.step (.begin caller c)) := by
  obtain ⟨hdue, hbegin⟩ := t.shared.begin_frame c
  rw [hc.clock_eq] at hbegin
  obtain ⟨hreply, hcall⟩ := h.shared.call c
  have hframe := hc.call_frame { t.shared with store := t.shared.store.deleteAll t.dropping }
  have hreplyTo := (Shared.call_frame
    { t.shared with store := t.shared.store.deleteAll t.dropping } c).1
  refine ⟨?_, ?_, ?_⟩
  · rw [List.map_append, Shared.calls_append]
    refine Same.trans ?_ (hframe.symm.trans hcall)
    refine ⟨hbegin.cache, ?_, hbegin.state, hbegin.clock⟩
    rw [dropping_begin, hdue, Store.deleteAll_append]
    exact congrArg (fun s : Store => (s.deleteAll _).deleteAll _) hbegin.store
  · have hone : (t.step (.begin caller c)).replies =
        t.replies ++ [(caller, (t.shared.begin c).1.due.reply)] := List.map_append
    rw [hone, hdue, h.replies, List.map_append, List.map_append, Shared.replies_append,
      List.zip_append (by rw [Shared.length_replies, List.length_map, List.length_map])]
    exact congrArg (fun r => _ ++ [(caller, r)]) (hreplyTo.symm.trans hreply)
  · intro e he
    rcases List.mem_append.1 he with he | he
    · exact h.saving e he
    · rw [List.mem_singleton.1 he]
      show (t.shared.begin c).1.due.saving = []
      rw [hdue, hc.saving_eq]

theorem InOrder.answer (h : InOrder d cs t) (n which : Nat) :
    InOrder d cs (t.step (.answer n which)) := by
  rcases t.answer_cases n which with hsame | ⟨caller, c, c', hn, hcalls, hticks⟩
  · rw [hsame]
    exact h
  have hsaving : c.due.saving = [] := h.saving _ (List.mem_of_getElem? hn)
  cases hticks with
  | saved hsaves _ _ => cases hsaving.symm.trans hsaves
  | @deleted i rest hdropping hdue hshared =>
      have hdropping' : t.dropping.Perm (i :: (t.step (.answer n which)).dropping) :=
        dropping_set hn hcalls [i] (by rw [hdue]; exact hdropping)
      refine ⟨Same.trans ?_ h.shared, (t.replies_answer n which).trans h.replies, ?_⟩
      · refine ⟨hshared.cache, ?_, hshared.state, hshared.clock⟩
        dsimp only
        rw [Store.deleteAll_perm _ hdropping', hshared.store]
        rfl
      · intro e he
        rw [hcalls] at he
        rcases List.mem_or_eq_of_mem_set he with he | rfl
        · exact h.saving e he
        · show c'.due.saving = []
          rw [hdue]
          exact hsaving

/-- **In order.** A call is done in the cache when it begins. All that is left of it are
deletions, and between those of other calls they may come at any time. -/
theorem in_order (d : Shared) {moves : List (Move ι)}
    (hfor : ∀ e ∈ Move.begun moves, ∃ k, e.2.IsFor k) :
    InOrder d (Move.begun moves) (d.traffic moves) := by
  induction moves using List.reverseRecOn with
  | nil => exact ⟨same_refl d, rfl, fun e he => absurd he List.not_mem_nil⟩
  | append_singleton moves m ih =>
      rw [Move.begun_snoc] at hfor ⊢
      rw [Shared.traffic_snoc]
      have hbefore := ih fun e he => hfor e (List.mem_append_left _ he)
      cases m with
      | begin caller c =>
          obtain ⟨k, hc⟩ := hfor (caller, c) (List.mem_append_right _ (List.mem_singleton_self _))
          exact hbefore.begin caller hc
      | answer n which => exact (List.append_nil _).symm ▸ hbefore.answer n which

end Traffic

/-! ## Different rules -/

/-- What belongs to rule `k`, in order. -/
def only (k : RuleKey) (l : List (RuleKey × α)) : List α :=
  l.filterMap fun e => if e.1 = k then some e.2 else none

section Only

variable {k : RuleKey} {a : α} {l : List (RuleKey × α)}

theorem only_cons_self : only k ((k, a) :: l) = a :: only k l :=
  List.filterMap_cons_some (if_pos rfl)

theorem only_cons_of_ne {q : RuleKey} (h : q ≠ k) : only k ((q, a) :: l) = only k l :=
  List.filterMap_cons_none (if_neg h)

theorem only_eq_nil (h : ∀ e ∈ l, e.1 ≠ k) : only k l = [] :=
  List.filterMap_eq_nil_iff.2 fun e he => if_neg (h e he)

theorem mem_only_iff : a ∈ only k l ↔ (k, a) ∈ l := by
  simp [only]

theorem only_append (l l' : List (RuleKey × α)) : only k (l ++ l') = only k l ++ only k l' :=
  List.filterMap_append

/-- What belongs to one rule, each with the rule. -/
theorem only_map_self (as : List α) : only k (as.map (k, ·)) = as := by
  simp [only, List.filterMap_map]

theorem only_map_of_ne {q : RuleKey} (h : q ≠ k) (as : List α) : only k (as.map (q, ·)) = [] := by
  refine only_eq_nil fun e he => ?_
  obtain ⟨a, -, rfl⟩ := List.mem_map.1 he
  exact h

/-- The first of a rule's own stands behind others only. -/
theorem exists_of_only_eq_cons {as : List α} (h : only k l = a :: as) :
    ∃ before after, l = before ++ (k, a) :: after ∧ (∀ e ∈ before, e.1 ≠ k) ∧
      only k after = as := by
  obtain ⟨before, ⟨q, b⟩, after, rfl, hbefore, hone, hafter⟩ := List.filterMap_eq_cons_iff.1 h
  obtain ⟨rfl, rfl⟩ : q = k ∧ b = a := by simpa using hone
  exact ⟨before, after, rfl, fun e he hq => by simpa [hq] using hbefore e he, hafter⟩

end Only

namespace Shared

/-- The two have the same instances of the rule, the same settings and the same clock. -/
structure Agree (k : RuleKey) (d d' : Shared) : Prop where
  instances : d.cache.ofRule k = d'.cache.ofRule k
  state : d.state = d'.state
  clock : d.clock = d'.clock

variable {d d' : Shared} {k q : RuleKey} {c : StateCall}

theorem agree_refl (k : RuleKey) (d : Shared) : Agree k d d := ⟨rfl, rfl, rfl⟩

theorem Agree.symm (h : Agree k d d') : Agree k d' d :=
  ⟨h.instances.symm, h.state.symm, h.clock.symm⟩

/-- A call for the rule returns the same and leaves the same of the rule. -/
theorem Agree.call (h : Agree k d d') (hc : c.IsFor k) :
    d.replyTo c = d'.replyTo c ∧ Agree k (d.call c) (d'.call c) := by
  obtain ⟨hdue, hinstances⟩ := (hc.confined d.state d.clock).congr h.instances
  have hframe := hc.call_frame d
  have hframe' := hc.call_frame d'
  rw [← h.state, ← h.clock] at hframe'
  refine ⟨?_, ?_, ?_, ?_⟩
  · rw [(d.call_frame c).1, (d'.call_frame c).1, ← h.state, ← h.clock, hdue]
  · rw [hframe.cache, hframe'.cache]
    exact hinstances
  · exact hframe.state.trans hframe'.state.symm
  · exact hframe.clock.trans hframe'.clock.symm

/-- A call for another rule leaves the rule alone. -/
theorem Agree.call_other (h : Agree k d d') (hc : c.IsFor q) (hq : q ≠ k) :
    Agree k (d.call c) d' := by
  have hframe := hc.call_frame d
  refine ⟨?_, hframe.state.trans h.state, hframe.clock.trans h.clock⟩
  rw [hframe.cache]
  exact ((hc.confined d.state d.clock).ofRule_of_ne d.cache hq.symm).trans h.instances

theorem Agree.calls_other (h : Agree k d d') (hq : q ≠ k) {cs : List StateCall}
    (hfor : ∀ c ∈ cs, c.IsFor q) : Agree k (d.calls cs) d' := by
  induction cs generalizing d with
  | nil => exact h
  | cons c cs ih =>
      obtain ⟨hc, hfor⟩ := List.forall_mem_cons.1 hfor
      exact ih (h.call_other hc hq) hfor

/-- **On its own.** Among calls for different rules those for one rule return what they return
on their own, and leave the same of the rule. -/
theorem Agree.replies_only (h : Agree k d d') {l : List (RuleKey × StateCall)}
    (hfor : ∀ e ∈ l, e.2.IsFor e.1) :
    only k ((l.map Prod.fst).zip (d.replies (l.map Prod.snd))) = d'.replies (only k l) ∧
      Agree k (d.calls (l.map Prod.snd)) (d'.calls (only k l)) := by
  induction l generalizing d d' with
  | nil => exact ⟨rfl, h⟩
  | cons e l ih =>
      obtain ⟨q, c⟩ := e
      obtain ⟨hc, hfor⟩ := List.forall_mem_cons.1 hfor
      by_cases hq : q = k
      · subst hq
        obtain ⟨hreply, hafter⟩ := h.call hc
        obtain ⟨hreplies, hagree⟩ := ih hafter hfor
        rw [only_cons_self]
        refine ⟨?_, hagree⟩
        show only q ((q, d.replyTo c) :: _) = d'.replyTo c :: (d'.call c).replies (only q l)
        rw [only_cons_self, hreply]
        exact congrArg _ hreplies
      · obtain ⟨hreplies, hagree⟩ := ih (h.call_other hc hq) hfor
        rw [only_cons_of_ne hq]
        refine ⟨?_, hagree⟩
        show only k ((q, d.replyTo c) :: _) = d'.replies (only k l)
        rw [only_cons_of_ne hq]
        exact hreplies

/-- A call for one rule and then one for another. What the second deletes is what it would
delete first. -/
theorem same_call_call (d : Shared) {c c' : StateCall} (hc : c.IsFor k) (hc' : c'.IsFor q)
    (hq : q ≠ k) :
    Same ((d.call c).call c') { d with
      cache := (c'.enter d.state d.clock (c.enter d.state d.clock d.cache).2).2
      store := d.store.deleteAll ((c.enter d.state d.clock d.cache).1.dropping ++
        (c'.enter d.state d.clock d.cache).1.dropping) } := by
  have hother := (hc.confined d.state d.clock).ofRule_of_ne d.cache hq
  have hdue := ((hc'.confined d.state d.clock).congr hother).1
  refine ((hc.call_frame d).call c').2.trans ((hc'.call_frame _).trans ?_)
  refine ⟨rfl, ?_, rfl, rfl⟩
  dsimp only
  rw [hdue, Store.deleteAll_append]

/-- **Either first.** -/
theorem call_comm (d : Shared) {c c' : StateCall} (hc : c.IsFor k) (hc' : c'.IsFor q)
    (hq : q ≠ k) : Same ((d.call c).call c') ((d.call c').call c) := by
  refine (d.same_call_call hc hc' hq).trans (Same.trans ?_ (d.same_call_call hc' hc hq.symm).symm)
  refine ⟨?_, d.store.deleteAll_perm List.perm_append_comm, rfl, rfl⟩
  exact (hc.confined d.state d.clock).comm (hc'.confined d.state d.clock) hq.symm d.cache

/-- A call for a rule may be made before those for others. -/
theorem same_of_move (d : Shared) (hc : c.IsFor k) {l : List (RuleKey × StateCall)}
    (hfor : ∀ e ∈ l, e.2.IsFor e.1) (hl : ∀ e ∈ l, e.1 ≠ k) :
    Same ((d.call c).calls (l.map Prod.snd)) ((d.calls (l.map Prod.snd)).call c) := by
  induction l generalizing d with
  | nil => exact same_refl _
  | cons e l ih =>
      obtain ⟨he, hfor⟩ := List.forall_mem_cons.1 hfor
      obtain ⟨hne, hl⟩ := List.forall_mem_cons.1 hl
      exact ((d.call_comm hc he hne).calls _).trans (ih (d.call e.2) hfor hl)

/-- **Any order.** Calls for different rules leave the same in every order that keeps the order
of those for each rule. -/
theorem same_of_only (d : Shared) {l l' : List (RuleKey × StateCall)}
    (hfor : ∀ e ∈ l, e.2.IsFor e.1) (hfor' : ∀ e ∈ l', e.2.IsFor e.1)
    (honly : ∀ k, only k l = only k l') :
    Same (d.calls (l.map Prod.snd)) (d.calls (l'.map Prod.snd)) := by
  induction l generalizing d l' with
  | nil =>
      cases l' with
      | nil => exact same_refl d
      | cons e l' => cases (honly e.1).trans only_cons_self
  | cons e l ih =>
      obtain ⟨k, c⟩ := e
      obtain ⟨hc, hfor⟩ := List.forall_mem_cons.1 hfor
      obtain ⟨before, after, rfl, hbefore, -⟩ :=
        exists_of_only_eq_cons ((honly k).symm.trans only_cons_self)
      have hrest : ∀ e ∈ before ++ after, e.2.IsFor e.1 := fun e he =>
        hfor' e (by simpa using Or.imp_right Or.inr (List.mem_append.1 he))
      have honly' : ∀ q, only q l = only q (before ++ after) := by
        intro q
        have hq := honly q
        rw [only_append] at hq ⊢
        by_cases h : k = q
        · subst h
          rw [only_cons_self, only_cons_self, only_eq_nil hbefore] at hq
          rw [only_eq_nil hbefore]
          exact (List.cons.inj hq).2
        · rwa [only_cons_of_ne h, only_cons_of_ne h] at hq
      have hmoved := ((d.same_of_move hc (fun e he => hfor' e (List.mem_append_left _ he))
        hbefore).calls (after.map Prod.snd))
      rw [List.map_append, List.map_cons, calls_append]
      refine (ih (d.call c) hfor hrest honly').trans ?_
      rw [List.map_append, calls_append]
      exact hmoved

/-- **Either caller first.** -/
theorem same_of_two (d : Shared) {k₁ k₂ : RuleKey} (hk : k₁ ≠ k₂)
    {l : List (RuleKey × StateCall)} (hfor : ∀ e ∈ l, (e.1 = k₁ ∨ e.1 = k₂) ∧ e.2.IsFor e.1) :
    Same (d.calls (l.map Prod.snd)) (d.calls (only k₁ l ++ only k₂ l)) := by
  have hcalls : only k₁ l ++ only k₂ l =
      ((only k₁ l).map (k₁, ·) ++ (only k₂ l).map (k₂, ·)).map Prod.snd := by
    rw [List.map_append, List.map_map, List.map_map]
    exact congrArg₂ (· ++ ·) (List.map_id _).symm (List.map_id _).symm
  rw [hcalls]
  refine d.same_of_only (fun e he => (hfor e he).2) (fun e he => ?_) fun k => ?_
  · rcases List.mem_append.1 he with he | he
    · obtain ⟨c, hc, rfl⟩ := List.mem_map.1 he
      exact (hfor (k₁, c) (mem_only_iff.1 hc)).2
    · obtain ⟨c, hc, rfl⟩ := List.mem_map.1 he
      exact (hfor (k₂, c) (mem_only_iff.1 hc)).2
  · rw [only_append]
    by_cases h₁ : k₁ = k
    · subst h₁
      rw [only_map_self, only_map_of_ne hk.symm, List.append_nil]
    · by_cases h₂ : k₂ = k
      · subst h₂
        rw [only_map_self, only_map_of_ne hk, List.nil_append]
      · rw [only_map_of_ne h₁, only_map_of_ne h₂]
        refine only_eq_nil fun e he hkey => ?_
        rcases (hfor e he).1 with h | h
        · exact h₁ (h.symm.trans hkey)
        · exact h₂ (h.symm.trans hkey)

end Shared

namespace Traffic

/-- **Beside others.** The calls for a rule return what they return on their own from any start
with the same instances of the rule, and leave the same of it. -/
theorem replies_of_agree {d d' : Shared} {k : RuleKey} (h : Shared.Agree k d d')
    {moves : List (Move RuleKey)} (hfor : ∀ e ∈ Move.begun moves, e.2.IsFor e.1) :
    only k (d.traffic moves).replies = d'.replies (only k (Move.begun moves)) ∧
      (d.traffic moves).shared.cache.ofRule k =
        (d'.calls (only k (Move.begun moves))).cache.ofRule k := by
  obtain ⟨hshared, hreplies, -⟩ := in_order d fun e he => ⟨e.1, hfor e he⟩
  obtain ⟨hsame, hagree⟩ := h.replies_only hfor
  rw [hreplies]
  exact ⟨hsame, (congrArg (Cache.ofRule · k) hshared.cache).trans hagree.instances⟩

variable {k₁ k₂ : RuleKey} {moves : List (Move RuleKey)}

/-- **Rules do not interfere.** Two callers make calls, each for a rule of its own, and the
store answers them in any order. When all have returned, cache and store are as if one had made
its calls before the other began, whichever that is, and so is what each of them was returned.
That, and what is left of its rule, does not depend on the other rules: it would be the same
from any start with the same instances of that rule, beside any calls for other rules. -/
theorem rules_apart (hk : k₁ ≠ k₂) (d : Shared)
    (hfor : ∀ e ∈ Move.begun moves, (e.1 = k₁ ∨ e.1 = k₂) ∧ e.2.IsFor e.1)
    (hover : (d.traffic moves).isOver = true) {cs₁ cs₂ : List StateCall}
    (h₁ : only k₁ (Move.begun moves) = cs₁) (h₂ : only k₂ (Move.begun moves) = cs₂) :
    let t := d.traffic moves
    (Same t.shared (d.calls (cs₁ ++ cs₂)) ∧ Same t.shared (d.calls (cs₂ ++ cs₁))) ∧
    (only k₁ t.replies = d.replies cs₁ ∧ only k₁ t.replies = (d.calls cs₂).replies cs₁) ∧
    (only k₂ t.replies = d.replies cs₂ ∧ only k₂ t.replies = (d.calls cs₁).replies cs₂) ∧
    ∀ (k : RuleKey) (d' : Shared) (moves' : List (Move RuleKey)), Shared.Agree k d d' →
      (∀ e ∈ Move.begun moves', e.2.IsFor e.1) →
      only k (Move.begun moves') = only k (Move.begun moves) →
      only k (d'.traffic moves').replies = only k t.replies ∧
        (d'.traffic moves').shared.cache.ofRule k = t.shared.cache.ofRule k := by
  have hown : ∀ e ∈ Move.begun moves, e.2.IsFor e.1 := fun e he => (hfor e he).2
  have hend : Same (d.traffic moves).shared
      (d.calls ((Move.begun moves).map Prod.snd)) := by
    have hshared := (in_order d fun e he => ⟨e.1, hown e he⟩).shared
    rw [dropping_eq_nil hover] at hshared
    exact hshared
  -- the calls of the other leave a rule alone
  have hother : ∀ {k q : RuleKey}, q ≠ k →
      Shared.Agree k d (d.calls (only q (Move.begun moves))) := fun hq =>
    ((Shared.agree_refl _ d).calls_other hq fun c hc => hown _ (mem_only_iff.1 hc)).symm
  subst h₁ h₂
  refine ⟨⟨?_, ?_⟩, ⟨?_, ?_⟩, ⟨?_, ?_⟩, ?_⟩
  · exact hend.trans (d.same_of_two hk hfor)
  · exact hend.trans (d.same_of_two hk.symm fun e he => ⟨(hfor e he).1.symm, (hfor e he).2⟩)
  · exact (replies_of_agree (Shared.agree_refl k₁ d) hown).1
  · exact (replies_of_agree (hother hk.symm) hown).1
  · exact (replies_of_agree (Shared.agree_refl k₂ d) hown).1
  · exact (replies_of_agree (hother hk) hown).1
  · intro k d' moves' hagree hfor' honly
    obtain ⟨hreplies, hleft⟩ := replies_of_agree hagree hown
    obtain ⟨hreplies', hleft'⟩ := replies_of_agree (Shared.agree_refl k d') hfor'
    rw [honly] at hreplies' hleft'
    exact ⟨hreplies'.trans hreplies.symm, hleft'.trans hleft.symm⟩

/-- The rule `a` of two orgs, with everything saved. -/
def twoOrgs : Shared :=
  ({ clock := ⟨60 * nanosPerSecond⟩ } : Shared).calls
    [.process { uid := "a" } (Shared.found [("web", .alerting), ("db", .normal)] 0) ∅,
      .process { org := 2, uid := "a" } (Shared.found [("web", .alerting)] 0) ∅, .persist]

/-- The rule of the first org loses a host while that of the second is reset, and the store
answers the later call first. -/
def namesakes : List (Move RuleKey) :=
  [.begin ⟨1, "a"⟩ (.process { uid := "a" } (Shared.found [("web", .alerting)] 60) ∅),
    .begin ⟨2, "a"⟩ (.reset ⟨2, "a"⟩ none), .answer 1 0, .answer 0 0]

theorem rules_apart_namesakes :
    let t := twoOrgs.traffic namesakes
    (twoOrgs.store.rows.map Row.ruleKey, t.shared.store.rows.map Row.ruleKey) =
        ([⟨1, "a"⟩, ⟨1, "a"⟩, ⟨2, "a"⟩], [⟨1, "a"⟩]) ∧
      only ⟨2, "a"⟩ t.replies = twoOrgs.replies (only ⟨2, "a"⟩ (Move.begun namesakes)) ∧
      Same t.shared (twoOrgs.calls (only ⟨2, "a"⟩ (Move.begun namesakes) ++
        only ⟨1, "a"⟩ (Move.begun namesakes))) := by
  have hfor : ∀ e ∈ Move.begun namesakes,
      (e.1 = ⟨1, "a"⟩ ∨ e.1 = ⟨2, "a"⟩) ∧ e.2.IsFor e.1 := by
    intro e he
    simp only [Move.begun, namesakes, List.filterMap_cons, List.filterMap_nil, List.mem_cons,
      List.not_mem_nil, or_false] at he
    rcases he with rfl | rfl
    · exact ⟨Or.inl rfl, rfl⟩
    · exact ⟨Or.inr rfl, rfl⟩
  have hapart := rules_apart (by decide) twoOrgs hfor (by decide +kernel) rfl rfl
  exact ⟨by decide +kernel, hapart.2.2.1.1, hapart.1.2⟩

end Traffic

end Vigil
