import Vigil.Metrics.Scheduling

/-!
# What the hash of a rule set tells apart

The UIDs of a rule set are put in order and hashed end to end, with nothing between them. So
the order of a listing does not matter (`RuleSetHash.bytes_of_perm`), but where one UID ends and
the next begins is lost: two rule sets have the same bytes exactly if their UIDs in order read
the same when they are joined. UIDs that do not begin with one another can be read back off the
bytes (`RuleSetHash.eq_of_flatMap_eq`), and rule sets with such UIDs share a hash only if the
hash collides on different bytes (`RuleSetHash.bytes_eq_iff`).
-/

namespace Vigil

namespace RuleSetHash

variable {uids uids' : List String}

/-! ## Order -/

theorem mergeSort_of_perm (h : uids.Perm uids') : uids.mergeSort = uids'.mergeSort := by
  have hsorted : ∀ l : List String, l.mergeSort.Pairwise (· ≤ ·) := fun l => by
    have hle := @List.pairwise_mergeSort String (fun a b => decide (a ≤ b))
      (fun a b c hab hbc => decide_eq_true
        (String.le_trans (of_decide_eq_true hab) (of_decide_eq_true hbc)))
      (fun a b => by simpa using String.le_total a b) l
    exact hle.imp of_decide_eq_true
  refine List.Perm.eq_of_pairwise (fun _ _ _ _ => String.le_antisymm) (hsorted uids)
    (hsorted uids') ?_
  exact (List.mergeSort_perm uids _).trans (h.trans (List.mergeSort_perm uids' _).symm)

theorem bytes_of_perm (h : uids.Perm uids') : bytes uids = bytes uids' := by
  unfold bytes
  rw [mergeSort_of_perm h]

theorem hash_of_perm (h : uids.Perm uids') : hash uids = hash uids' :=
  congrArg fold (bytes_of_perm h)

/-! ## Boundaries -/

theorem bytes_eq_bytes_join (uids : List String) :
    bytes uids = (String.join uids.mergeSort).toUTF8.data.toList := by
  unfold bytes
  induction uids.mergeSort with
  | nil => rfl
  | cons u us ih =>
      rw [List.flatMap_cons, ih, String.join_cons]
      simp

/-- Bytes say what the joined UIDs say, and no more. -/
theorem bytes_eq_iff_join :
    bytes uids = bytes uids' ↔ String.join uids.mergeSort = String.join uids'.mergeSort := by
  rw [bytes_eq_bytes_join, bytes_eq_bytes_join]
  constructor
  · intro h
    rw [← String.toByteArray_inj]
    exact ByteArray.ext (Array.toList_inj.1 h)
  · intro h
    rw [h]

/-- No UID is empty, and none of one list begins with one of the other unless they are the
same. -/
structure Readable (uids uids' : List String) : Prop where
  ne_empty : ∀ u ∈ uids, u ≠ ""
  ne_empty' : ∀ u ∈ uids', u ≠ ""
  eq_of_begins : ∀ u ∈ uids, ∀ u' ∈ uids',
    u.toList <+: u'.toList ∨ u'.toList <+: u.toList → u = u'

theorem Readable.of_subset {us us' : List String} (h : Readable uids uids') (hu : us ⊆ uids)
    (hu' : us' ⊆ uids') : Readable us us' where
  ne_empty u hmem := h.ne_empty u (hu hmem)
  ne_empty' u hmem := h.ne_empty' u (hu' hmem)
  eq_of_begins u hmem u' hmem' := h.eq_of_begins u (hu hmem) u' (hu' hmem')

theorem flatMap_cons_ne_nil {u : String} (hu : u ≠ "") (us : List String) :
    (u :: us).flatMap String.toList ≠ [] := by
  intro hnil
  rw [List.flatMap_cons] at hnil
  exact hu (String.toList_eq_nil_iff.1 (List.append_eq_nil_iff.1 hnil).1)

/-- The UIDs are read back one by one: the first ones begin the same text, and so do not
differ. -/
theorem eq_of_flatMap_eq (hr : Readable uids uids')
    (h : uids.flatMap String.toList = uids'.flatMap String.toList) : uids = uids' := by
  induction uids generalizing uids' with
  | nil =>
      cases uids' with
      | nil => rfl
      | cons u' us' =>
          exact absurd h.symm (flatMap_cons_ne_nil (hr.ne_empty' u' List.mem_cons_self) us')
  | cons u us ih =>
      cases uids' with
      | nil => exact absurd h (flatMap_cons_ne_nil (hr.ne_empty u List.mem_cons_self) us)
      | cons u' us' =>
          rw [List.flatMap_cons, List.flatMap_cons] at h
          have hbegins : u.toList <+: u'.toList ∨ u'.toList <+: u.toList := by
            apply List.prefix_or_prefix_of_prefix (List.prefix_append _ (us.flatMap String.toList))
            rw [h]
            exact List.prefix_append _ _
          obtain rfl := hr.eq_of_begins u List.mem_cons_self u' List.mem_cons_self hbegins
          have hrest : us = us' :=
            ih (hr.of_subset (List.subset_cons_self u us) (List.subset_cons_self u us'))
              (List.append_cancel_left h)
          rw [hrest]

theorem perm_of_bytes_eq (hr : Readable uids uids') (h : bytes uids = bytes uids') :
    uids.Perm uids' := by
  have htext : uids.mergeSort.flatMap String.toList = uids'.mergeSort.flatMap String.toList := by
    rw [← String.toList_join, ← String.toList_join, bytes_eq_iff_join.1 h]
  have hsorted : uids.mergeSort = uids'.mergeSort :=
    eq_of_flatMap_eq (hr.of_subset (List.mergeSort_perm uids _).subset
      (List.mergeSort_perm uids' _).subset) htext
  exact (List.mergeSort_perm uids _).symm.trans (hsorted ▸ List.mergeSort_perm uids' _)

/-- **What the bytes tell.** Two rule sets have the same bytes exactly if their UIDs in order
read the same when they are joined. If no UID is empty, and none of one rule set begins with a
different one of the other, that is so only for the same UIDs in another order: then a hash that
different rule sets share is one of different bytes. -/
theorem bytes_eq_iff (uids uids' : List String) :
    (bytes uids = bytes uids' ↔ String.join uids.mergeSort = String.join uids'.mergeSort) ∧
      (Readable uids uids' →
        (bytes uids = bytes uids' ↔ uids.Perm uids') ∧
        (hash uids = hash uids' → ¬uids.Perm uids' →
          bytes uids ≠ bytes uids' ∧ fold (bytes uids) = fold (bytes uids'))) := by
  refine ⟨bytes_eq_iff_join, ?_⟩
  intro hr
  have hperm : bytes uids = bytes uids' ↔ uids.Perm uids' :=
    ⟨perm_of_bytes_eq hr, bytes_of_perm⟩
  refine ⟨hperm, ?_⟩
  intro hhash hother
  exact ⟨mt hperm.1 hother, hhash⟩

theorem bytes_eq_iff_unlike :
    Readable ["disk", "cpu"] ["disk", "memory"] ∧
      bytes ["disk", "cpu"] ≠ bytes ["disk", "memory"] := by
  have hr : Readable ["disk", "cpu"] ["disk", "memory"] := ⟨by decide, by decide, by decide⟩
  obtain ⟨-, hreadable⟩ := bytes_eq_iff ["disk", "cpu"] ["disk", "memory"]
  refine ⟨hr, mt (hreadable hr).1.1 ?_⟩
  decide

/-- **Where a UID ends is lost.** Two rule sets without a common UID have the same bytes, and
so leave the same readings. -/
theorem boundaries_lost :
    ¬["ab", "c"].Perm ["a", "bc"] ∧ bytes ["ab", "c"] = bytes ["a", "bc"] ∧
      ∀ m : SchedulerMetrics, m.recordRules ["ab", "c"] = m.recordRules ["a", "bc"] := by
  have hbytes : bytes ["ab", "c"] = bytes ["a", "bc"] := by
    unfold bytes
    rw [List.mergeSort_of_pairwise (by decide), List.mergeSort_of_pairwise (by decide)]
    decide
  refine ⟨by decide, hbytes, ?_⟩
  intro m
  have hhash : hash ["ab", "c"] = hash ["a", "bc"] := congrArg fold hbytes
  simp only [SchedulerMetrics.recordRules, hhash, List.length_cons, List.length_nil]

end RuleSetHash

end Vigil
