import Vigil.Proofs.Cache.Rules

/-!
# Calls that keep to one rule

A call is confined to a rule if it reads and writes the instances of that rule alone. What it
answers and what it leaves of the rule then does not depend on the rest of the cache
(`Cache.Confined.congr`), the rest stays (`Cache.Confined.ofRule_of_ne`), and it makes no
difference which of two calls for different rules comes first (`Cache.Confined.comm`), also
where one of them makes or clears the org that they share. A round, a note of what was sent and
a removal are confined to their rule.
-/

namespace Vigil

namespace Table

variable {κ : Type u} {κ' : Type v} {α : Type w} [Ord κ] [Ord κ']

/-- Binds `k` to a table, unless that is empty. -/
def assign [Std.TransOrd κ] (t : Table κ (Table κ' α)) (k : κ) (v : Table κ' α) :
    Table κ (Table κ' α) :=
  if v.isEmpty then t.erase k else t.insert k v

variable [Std.TransOrd κ] [Std.LawfulEqOrd κ]

theorem find?_assign (t : Table κ (Table κ' α)) (k q : κ) (v : Table κ' α) :
    (t.assign k v).find? q =
      if compare q k = .eq then (if v.isEmpty then none else some v) else t.find? q := by
  unfold assign
  by_cases hv : v.isEmpty = true
  · rw [if_pos hv, if_pos hv, find?_erase]
  · rw [if_neg hv, if_neg hv, find?_insert]

theorem assign_assign (t : Table κ (Table κ' α)) (k : κ) (v w : Table κ' α) :
    (t.assign k v).assign k w = t.assign k w := by
  refine ext_find? fun q => ?_
  rw [find?_assign, find?_assign, find?_assign]
  split <;> rfl

theorem assign_comm (t : Table κ (Table κ' α)) {k k' : κ} (h : k ≠ k') (v v' : Table κ' α) :
    (t.assign k v).assign k' v' = (t.assign k' v').assign k v := by
  refine ext_find? fun q => ?_
  rw [find?_assign, find?_assign, find?_assign, find?_assign]
  by_cases hk : compare q k = .eq
  · obtain rfl := Std.LawfulEqOrd.eq_of_compare hk
    have hk' : compare q k' ≠ .eq := fun hk' => h (Std.LawfulEqOrd.eq_of_compare hk')
    rw [if_neg hk', if_pos hk, if_pos hk]
  · rw [if_neg hk, if_neg hk]

end Table

namespace Cache

/-! ## Writing rules one after the other -/

theorem setRule_eq (c : Cache) (k : RuleKey) (rs : RuleInstances) :
    c.setRule k rs = ⟨c.orgs.assign k.org ((c.ofOrg k.org).assign k.uid rs)⟩ := rfl

theorem ofOrg_assign (c : Cache) (org : Int) (rules : Table String RuleInstances) :
    (⟨c.orgs.assign org rules⟩ : Cache).ofOrg org = rules := ofOrg_mk c org rules

theorem setRule_setRule (c : Cache) (k : RuleKey) (rs rs' : RuleInstances) :
    (c.setRule k rs).setRule k rs' = c.setRule k rs' := by
  rw [setRule_eq, setRule_eq, setRule_eq, ofOrg_assign, Table.assign_assign, Table.assign_assign]

theorem setRule_comm (c : Cache) {k k' : RuleKey} (h : k ≠ k') (rs rs' : RuleInstances) :
    (c.setRule k rs).setRule k' rs' = (c.setRule k' rs').setRule k rs := by
  obtain ⟨org, uid⟩ := k
  obtain ⟨org', uid'⟩ := k'
  simp only [setRule_eq]
  by_cases horg : org = org'
  · subst horg
    have huid : uid ≠ uid' := fun huid => h (by rw [huid])
    simp only [ofOrg_assign, Table.assign_assign, Table.assign_comm _ huid]
  · have hother : ∀ (a b : Int) (rules : Table String RuleInstances), b ≠ a →
        (⟨c.orgs.assign a rules⟩ : Cache).ofOrg b = c.ofOrg b :=
      fun a b rules hne => ofOrg_mk_of_ne c rules hne
    rw [hother _ _ _ (Ne.symm horg), hother _ _ _ horg, Table.assign_comm _ horg]

/-! ## Confined calls -/

/-- The call answers from the instances of rule `k`, and leaves the cache alone or writes them. -/
def Confined (k : RuleKey) (f : Cache → α × Cache) : Prop :=
  ∃ g : RuleInstances → α × Option RuleInstances,
    ∀ c, f c = ((g (c.ofRule k)).1, (g (c.ofRule k)).2.elim c (c.setRule k))

namespace Confined

variable {k k' : RuleKey} {f : Cache → α × Cache} {f' : Cache → β × Cache}

theorem ofRule_of_ne (h : Confined k f) (c : Cache) (hk : k' ≠ k) :
    (f c).2.ofRule k' = c.ofRule k' := by
  obtain ⟨g, hg⟩ := h
  rw [hg]
  cases (g (c.ofRule k)).2 with
  | none => rfl
  | some rs => exact ofRule_setRule_of_ne c rs hk

theorem congr (h : Confined k f) {c c' : Cache} (hc : c.ofRule k = c'.ofRule k) :
    (f c).1 = (f c').1 ∧ (f c).2.ofRule k = (f c').2.ofRule k := by
  obtain ⟨g, hg⟩ := h
  rw [hg, hg, hc]
  refine ⟨rfl, ?_⟩
  cases (g (c'.ofRule k)).2 with
  | none => exact hc
  | some rs => exact (ofRule_setRule c k rs).trans (ofRule_setRule c' k rs).symm

/-- **Either first.** -/
theorem comm (h : Confined k f) (h' : Confined k' f') (hk : k ≠ k') (c : Cache) :
    (f' (f c).2).2 = (f (f' c).2).2 := by
  have hf := h.ofRule_of_ne c hk.symm
  have hf' := h'.ofRule_of_ne c hk
  obtain ⟨g, hg⟩ := h
  obtain ⟨g', hg'⟩ := h'
  have hleft : (f' (f c).2).2 = (g' (c.ofRule k')).2.elim (f c).2 ((f c).2.setRule k') := by
    rw [hg', hf]
  have hright : (f (f' c).2).2 = (g (c.ofRule k)).2.elim (f' c).2 ((f' c).2.setRule k) := by
    rw [hg, hf']
  rw [hleft, hright, hg, hg']
  cases (g (c.ofRule k)).2 with
  | none => cases (g' (c.ofRule k')).2 <;> rfl
  | some rs =>
      cases (g' (c.ofRule k')).2 with
      | none => rfl
      | some rs' => exact setRule_comm c hk rs rs'

theorem const (k : RuleKey) (a : α) : Confined k fun c => (a, c) :=
  ⟨fun _ => (a, none), fun _ => rfl⟩

theorem withRule (k : RuleKey) (f : RuleInstances → α × RuleInstances) :
    Confined k fun c => c.withRule k f :=
  ⟨fun rs => ((f rs).1, some (f rs).2), fun _ => rfl⟩

/-- The answer may be read differently. -/
theorem map (h : Confined k f) (read : α → γ) : Confined k fun c => (read (f c).1, (f c).2) := by
  obtain ⟨g, hg⟩ := h
  refine ⟨fun rs => (read (g rs).1, (g rs).2), fun c => ?_⟩
  dsimp only
  rw [hg]

/-- One call after another for the same rule. -/
theorem seq (h : Confined k f) (h' : Confined k f') : Confined k fun c => f' (f c).2 := by
  obtain ⟨g, hg⟩ := h
  obtain ⟨g', hg'⟩ := h'
  refine ⟨fun rs => match (g rs).2 with
    | none => g' rs
    | some rs' => ((g' rs').1, some ((g' rs').2.getD rs')), fun c => ?_⟩
  dsimp only
  rw [hg, hg']
  cases (g (c.ofRule k)).2 with
  | none => rfl
  | some rs' =>
      dsimp only [Option.elim_some]
      rw [ofRule_setRule]
      cases (g' rs').2 with
      | none => rfl
      | some rs'' => exact Prod.ext rfl (setRule_setRule c k rs' rs'')

theorem round (settings : StateSettings) (now : Moment) (r : Rule) (vs : List Verdict)
    (extra : Labels) : Confined r.key fun c => c.round settings now r vs extra := by
  unfold Cache.round
  cases settings.policy? with
  | none => exact const r.key none
  | some p => exact withRule r.key _

theorem removeRule (k : RuleKey) : Confined k fun c => c.removeRule k := withRule k _

theorem markSent {sent : List Instance} (h : ∀ i ∈ sent, i.ruleKey = k) :
    Confined k fun c => ((), c.markSent sent) := by
  induction sent with
  | nil => exact const k ()
  | cons i sent ih =>
      obtain ⟨rfl, hrest⟩ := List.forall_mem_cons.1 h
      have hone : Confined i.ruleKey fun c =>
          c.withRule i.ruleKey fun rs => ((), noteSent i rs) := withRule i.ruleKey _
      have hsent : (fun c : Cache => ((), c.markSent (i :: sent))) = fun c =>
          ((), (c.withRule i.ruleKey fun rs => ((), noteSent i rs)).2.markSent sent) :=
        funext fun c => Prod.ext rfl (c.markSent_cons i sent)
      rw [hsent]
      exact hone.seq (ih hrest)

end Confined

end Cache

end Vigil
