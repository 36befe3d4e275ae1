import Vigil.Engine.Calls
import Vigil.Proofs.Engine.Clearing
import Vigil.Proofs.Store.Rows
import Vigil.Simulation.Scenario

/-!
# Saving everything and starting again

What the calls on the instances do to the cache they do to the store, as long as it answers:
a round drops the rows of the instances that it drops, a reset those of its rule, and
nothing else leaves the cache. So every row is that of a cached instance
(`Shared.mirrors_calls`). When everything is saved the rows are those of the instances, and
a start from them restores the cache (`Shared.warm_of_persist`): each instance is there
again under its names and with its state, and no other.
-/

namespace Vigil

namespace Shared

/-- Cache, store, settings and clock of the two are the same. -/
structure Same (d d' : Shared) : Prop where
  cache : d.cache = d'.cache
  store : d.store = d'.store
  state : d.state = d'.state
  clock : d.clock = d'.clock

theorem same_refl (d : Shared) : Same d d := ⟨rfl, rfl, rfl, rfl⟩

theorem Same.symm {d d' : Shared} (h : Same d d') : Same d' d :=
  ⟨h.cache.symm, h.store.symm, h.state.symm, h.clock.symm⟩

theorem Same.trans {d d' d'' : Shared} (h : Same d d') (h' : Same d' d'') : Same d d'' :=
  ⟨h.cache.trans h'.cache, h.store.trans h'.store, h.state.trans h'.state,
    h.clock.trans h'.clock⟩

theorem isFrame_same : IsFrame Same :=
  ⟨same_refl, Same.trans, fun _ _ => ⟨rfl, rfl, rfl, rfl⟩⟩

end Shared

open Shared (Same same_refl isFrame_same)

/-! ## A store that answers -/

namespace PromptStore

/-- A store that fails no call. -/
def reliable : PromptStore := {}

theorem same_evict (r : Rule) (now : Moment) (stale : List Instance) (d : Shared) :
    Same (reliable.evict r now stale d) { d with store := d.store.deleteAll stale } := by
  induction stale generalizing d with
  | nil => exact ⟨rfl, rfl, rfl, rfl⟩
  | cons i stale ih =>
      have hone := isFrame_same.annotateClosing (d.deleteRow i true) r now i
      have hrest := ih ((d.deleteRow i true).annotateClosing r now i)
      refine ⟨hrest.cache.trans hone.cache, hrest.store.trans ?_, hrest.state.trans hone.state,
        hrest.clock.trans hone.clock⟩
      dsimp only
      rw [hone.store]
      rfl

/-- The rows of what a round drops are deleted. -/
theorem same_round {d : Shared} {r : Rule} {vs : List Verdict} {extra : Labels}
    {answer : Option Round} {cache : Cache}
    (h : d.cache.round d.state d.clock r vs extra = (answer, cache)) :
    Same (reliable.round d r vs extra).2
      { d with cache, store := d.store.deleteAll (answer.elim [] (·.stale)) } := by
  unfold round Shared.round
  rw [h]
  cases answer with
  | none => exact ⟨rfl, rfl, rfl, rfl⟩
  | some rd =>
      have hnotes : Same (rd.changes.foldl (fun d c => d.annotate (c.note r)) { d with cache })
          { d with cache } :=
        isFrame_same.foldl (f := fun d c => d.annotate (Change.note r c))
          (fun _ _ => ⟨rfl, rfl, rfl, rfl⟩) _ _
      obtain ⟨hcache, hstore, hstate, hclock⟩ := same_evict r d.clock rd.stale
        (rd.changes.foldl (fun d c => d.annotate (c.note r)) { d with cache })
      refine ⟨hcache.trans hnotes.cache, hstore.trans ?_, hstate.trans hnotes.state,
        hclock.trans hnotes.clock⟩
      dsimp only
      rw [hnotes.store]
      rfl

theorem same_erase (rule : Option Rule) (removed waiting : List Instance) (d : Shared) :
    Same (reliable.erase rule removed waiting d)
      { d with store := d.store.deleteAll waiting } := by
  induction waiting generalizing d with
  | nil => exact ⟨rfl, rfl, rfl, rfl⟩
  | cons i waiting ih =>
      have hone : Same (Erasure.answer ⟨rule, removed, i :: waiting⟩ 0 true d).2
          (d.deleteRow i true) := by
        unfold Erasure.answer
        dsimp only [List.getElem?_cons_zero]
        split
        · exact isFrame_same.close _ _
        · exact same_refl _
      have hrest := ih (Erasure.answer ⟨rule, removed, i :: waiting⟩ 0 true d).2
      refine ⟨hrest.cache.trans hone.cache, hrest.store.trans ?_, hrest.state.trans hone.state,
        hrest.clock.trans hone.clock⟩
      dsimp only
      rw [hone.store]
      rfl

theorem same_flush (is : List Instance) (saved : Nat) (d : Shared) :
    Same (reliable.flush is saved d).2 { d with store := d.store.saveAll is } := by
  induction is generalizing saved d with
  | nil => exact ⟨rfl, rfl, rfl, rfl⟩
  | cons i is ih =>
      obtain ⟨hcache, hstore, hstate, hclock⟩ := ih (saved + 1) (d.saveRow i true)
      exact ⟨hcache, hstore, hstate, hclock⟩

end PromptStore

/-! ## The calls -/

/-- A call on the instances of an engine. The clock may be set between two of them. -/
inductive StateCall where
  | setClock (t : Moment)
  | process (r : Rule) (vs : List Verdict) (extra : Labels)
  | markSent (sent : List Instance)
  | persist
  | reset (k : RuleKey) (rule : Option Rule)

namespace Shared

/-- What a call leaves when the store answers. -/
def call (d : Shared) : StateCall → Shared
  | .setClock clock => { d with clock }
  | .process r vs extra => (PromptStore.reliable.round d r vs extra).2
  | .markSent sent => { d with cache := d.cache.markSent sent }
  | .persist => (PromptStore.reliable.persist d).2
  | .reset k rule => (PromptStore.reliable.reset d k rule).2

/-- What calls leave that are made one after the other. -/
def calls (d : Shared) (cs : List StateCall) : Shared := cs.foldl call d

/-- Every row is that of a cached instance. -/
structure Mirrors (d : Shared) : Prop where
  named : d.cache.Named
  tidy : d.store.Tidy
  cached : ∀ row ∈ d.store.rows, (d.cache.get? row.ruleKey row.hash).isSome = true

variable {d d' : Shared}

theorem Mirrors.of_same (h : Mirrors d) (hs : Same d' d) : Mirrors d' := by
  obtain ⟨hcache, hstore, -, -⟩ := hs
  exact ⟨hcache ▸ h.named, hstore ▸ h.tidy, by rw [hcache, hstore]; exact h.cached⟩

/-- A round drops the rows of what it drops. -/
theorem mirrors_process (h : Mirrors d) (r : Rule) (vs : List Verdict) (extra : Labels) :
    Mirrors (d.call (.process r vs extra)) ∧ (d.call (.process r vs extra)).state = d.state := by
  obtain ⟨hnamed, hkept⟩ := Cache.round_frame h.named d.state d.clock r vs extra
  cases hround : d.cache.round d.state d.clock r vs extra with
  | mk answer cache =>
  rw [hround] at hnamed hkept
  have hsame := PromptStore.same_round hround
  obtain ⟨htidy, hrows⟩ := Store.deleteAll_frame h.tidy (answer.elim [] (·.stale))
  have hmirrors : Mirrors
      { d with cache, store := d.store.deleteAll (answer.elim [] (·.stale)) } := by
    refine ⟨hnamed, htidy, fun row hrow => ?_⟩
    obtain ⟨hrow, hothers⟩ := (hrows row).1 hrow
    rcases hkept _ _ (h.cached row hrow) with hcached | ⟨i, ⟨rd, rfl, hi⟩, hnames⟩
    · exact hcached
    · exact absurd (Prod.ext hnames.ruleKey hnames.labels).symm (hothers i hi)
  exact ⟨hmirrors.of_same hsame, hsame.state⟩

/-- A reset drops the rows of its rule. -/
theorem mirrors_reset (h : Mirrors d) (k : RuleKey) (rule : Option Rule) :
    Mirrors (d.call (.reset k rule)) ∧ (d.call (.reset k rule)).state = d.state := by
  have hsame := PromptStore.same_erase rule (d.cache.removeRule k).1 (d.cache.removeRule k).1
    { d with cache := (d.cache.removeRule k).2 }
  obtain ⟨htidy, hrows⟩ := Store.deleteAll_frame h.tidy (d.cache.removeRule k).1
  have hmirrors : Mirrors { d with
      cache := (d.cache.removeRule k).2
      store := d.store.deleteAll (d.cache.removeRule k).1 } := by
    refine ⟨Cache.named_removeRule h.named k, htidy, fun row hrow => ?_⟩
    obtain ⟨hrow, hothers⟩ := (hrows row).1 hrow
    obtain ⟨i, hi⟩ := Option.isSome_iff_exists.1 (h.cached row hrow)
    have hnames := h.named _ _ i hi
    have hne : row.ruleKey ≠ k := by
      rintro rfl
      exact hothers i (Table.mem_values_iff.2 ⟨row.hash, hi⟩)
        (Prod.ext hnames.ruleKey hnames.labels).symm
    show ((d.cache.setRule k ∅).get? row.ruleKey row.hash).isSome = true
    rw [Cache.get?_setRule, if_neg hne, hi]
    rfl
  exact ⟨hmirrors.of_same hsame, hsame.state⟩

/-- Every cached instance has its row, and there is no other row. -/
structure Saved (d : Shared) : Prop extends Mirrors d where
  exact : ∀ row, row ∈ d.store.rows ↔ ∃ i ∈ d.cache.snapshot, row = .ofInstance i

theorem Mirrors.address_ofInstance (h : Mirrors d) {k : RuleKey} {id : String} {i : Instance}
    (hi : d.cache.get? k id = some i) : (Row.ofInstance i).address = (k, id) :=
  Prod.ext (h.named k id i hi).ruleKey (h.named k id i hi).labels

/-- Instances have rows with different addresses. -/
theorem Mirrors.nodup_rows (h : Mirrors d) :
    (d.cache.snapshot.map fun i => (Row.ofInstance i).address).Nodup := by
  have haddress : (d.cache.snapshot.map fun i => (Row.ofInstance i).address) =
      d.cache.snapshot.map Instance.address := by
    refine List.map_congr_left fun i hi => ?_
    obtain ⟨k, id, hi⟩ := Cache.mem_snapshot_iff.1 hi
    exact (h.address_ofInstance hi).trans
      (Prod.ext (h.named k id i hi).ruleKey (h.named k id i hi).id).symm
  rw [haddress]
  exact Cache.nodup_addresses h.named

/-- **Saving everything.** -/
theorem saved_persist (h : Mirrors d) :
    Saved (d.call .persist) ∧ (d.call .persist).state = d.state := by
  have hsame : Same (d.call .persist) { d with store := d.store.saveAll d.cache.snapshot } :=
    PromptStore.same_flush d.cache.snapshot 0 d
  obtain ⟨htidy, hrows⟩ := Store.saveAll_frame h.tidy h.nodup_rows
  -- a row that was there before is that of a cached instance, and so was saved anew
  have hexact : ∀ row, row ∈ (d.store.saveAll d.cache.snapshot).rows ↔
      ∃ i ∈ d.cache.snapshot, row = .ofInstance i := by
    intro row
    rw [hrows]
    refine or_iff_left ?_
    rintro ⟨hrow, hothers⟩
    obtain ⟨i, hi⟩ := Option.isSome_iff_exists.1 (h.cached row hrow)
    exact hothers i (Cache.mem_snapshot_iff.2 ⟨_, _, hi⟩) (h.address_ofInstance hi).symm
  have hmirrors : Mirrors { d with store := d.store.saveAll d.cache.snapshot } := by
    refine ⟨h.named, htidy, fun row hrow => ?_⟩
    obtain ⟨i, hi, rfl⟩ := (hexact row).1 hrow
    obtain ⟨k, id, hi⟩ := Cache.mem_snapshot_iff.1 hi
    obtain ⟨hk, hid⟩ := Prod.mk.inj (h.address_ofInstance hi)
    rw [hk, hid, hi]
    rfl
  refine ⟨⟨hmirrors.of_same hsame, fun row => ?_⟩, hsame.state⟩
  rw [hsame.store, hsame.cache]
  exact hexact row

/-- **One call.** -/
theorem mirrors_call (h : Mirrors d) (c : StateCall) :
    Mirrors (d.call c) ∧ (d.call c).state = d.state := by
  cases c with
  | setClock t => exact ⟨⟨h.named, h.tidy, h.cached⟩, rfl⟩
  | process r vs extra => exact mirrors_process h r vs extra
  | markSent sent =>
      refine ⟨⟨Cache.named_markSent h.named sent, h.tidy, fun row hrow => ?_⟩, rfl⟩
      show ((d.cache.markSent sent).get? row.ruleKey row.hash).isSome = true
      rw [Cache.get?_markSent, Option.isSome_map]
      exact h.cached row hrow
  | persist =>
      obtain ⟨hsaved, hstate⟩ := saved_persist h
      exact ⟨hsaved.toMirrors, hstate⟩
  | reset k rule => exact mirrors_reset h k rule

/-- **The calls.** -/
theorem mirrors_calls (h : Mirrors d) (cs : List StateCall) :
    Mirrors (d.calls cs) ∧ (d.calls cs).state = d.state := by
  induction cs generalizing d with
  | nil => exact ⟨h, rfl⟩
  | cons c cs ih =>
      obtain ⟨hone, hstate⟩ := mirrors_call h c
      obtain ⟨hrest, hstate'⟩ := ih hone
      exact ⟨hrest, hstate'.trans hstate⟩

end Shared

/-! ## The start -/

namespace Cache

/-- The rules of a listing by their keys. -/
def listed (rules : List Rule) : Table RuleKey Rule := .ofList (rules.map fun r => (r.key, r))

theorem key_of_listed {rules : List Rule} {k : RuleKey} {r : Rule}
    (h : (listed rules).find? k = some r) : r.key = k := by
  obtain ⟨r', -, heq⟩ := List.mem_map.1 (Table.mem_of_find?_ofList h)
  obtain ⟨hk, rfl⟩ := Prod.mk.inj heq
  exact hk

/-- The rule is listed, and there is room for its history. -/
def HasRoom (settings : StateSettings) (rules : List Rule) (k : RuleKey) : Prop :=
  ∃ r, (listed rules).find? k = some r ∧ settings.historyFor r ≤ Window.maxInitialCapacity

/-- One row more. -/
def restoreRow? (settings : StateSettings) (rules : List Rule) (acc : Nat × Cache) (row : Row) :
    Option (Nat × Cache) :=
  match (listed rules).find? row.ruleKey with
  | some r => (row.restore? r (settings.historyFor r)).map fun i => (acc.1 + 1, acc.2.set i)
  | none => some acc

theorem restore?_eq (c : Cache) (settings : StateSettings) (rules : List Rule) (rows : List Row) :
    c.restore? settings rules rows = rows.foldlM (restoreRow? settings rules) (0, c) := rfl

variable {settings : StateSettings} {rules : List Rule}

/-- The row of an instance gives an instance with that row. -/
theorem exists_restoreRow {row : Row} (hhash : row.labels.id = row.hash)
    (hroom : HasRoom settings rules row.ruleKey) (n : Nat) (c : Cache) :
    ∃ i, restoreRow? settings rules (n, c) row = some (n + 1, c.set i) ∧
      i.address = row.address ∧ Row.ofInstance i = row := by
  obtain ⟨r, hlisted, hfits⟩ := hroom
  have hkey : r.key = row.ruleKey := key_of_listed hlisted
  refine ⟨{ Instance.new r row.labels (settings.historyFor r) with
    status := row.status, reason := row.reason, startsAt := row.since, endsAt := row.endsAt,
    lastEvaluation := row.lastEvaluation }, ?_, ?_, ?_⟩
  · unfold restoreRow?
    rw [hlisted]
    dsimp only
    rw [Row.restore?, Instance.new?, if_pos hfits]
    rfl
  · exact Prod.ext hkey hhash
  · obtain ⟨horg, huid⟩ := RuleKey.mk.inj hkey
    unfold Row.ofInstance
    dsimp only [Instance.new]
    rw [horg, huid, hhash]

/-- **Rows and instances.** Rows with different addresses are all restored, each at its
address. -/
theorem restore_rows {rows : List Row} (hdistinct : (rows.map Row.address).Nodup)
    (hhash : ∀ row ∈ rows, row.labels.id = row.hash)
    (hroom : ∀ row ∈ rows, HasRoom settings rules row.ruleKey) (n : Nat) (c : Cache) :
    ∃ c', rows.foldlM (restoreRow? settings rules) (n, c) = some (n + rows.length, c') ∧
      (∀ row ∈ rows, ∃ i, c'.get? row.ruleKey row.hash = some i ∧ i.address = row.address ∧
        Row.ofInstance i = row) ∧
      ∀ k id, (∀ row ∈ rows, row.address ≠ (k, id)) → c'.get? k id = c.get? k id := by
  induction rows generalizing n c with
  | nil => exact ⟨c, rfl, fun row hrow => absurd hrow List.not_mem_nil, fun _ _ _ => rfl⟩
  | cons row rows ih =>
      obtain ⟨hnew, hdistinct⟩ := List.nodup_cons.1 hdistinct
      obtain ⟨i, hi, haddress, hrow⟩ := exists_restoreRow (hhash row List.mem_cons_self)
        (hroom row List.mem_cons_self) n c
      obtain ⟨c', hc', hrestored, hothers⟩ := ih hdistinct
        (fun r hr => hhash r (List.mem_cons_of_mem row hr))
        (fun r hr => hroom r (List.mem_cons_of_mem row hr)) (n + 1) (c.set i)
      refine ⟨c', ?_, fun r hr => ?_, fun k id hne => ?_⟩
      · rw [List.foldlM_cons, hi]
        refine hc'.trans ?_
        rw [List.length_cons, Nat.add_assoc, Nat.add_comm 1]
      · rcases List.mem_cons.1 hr with rfl | hr
        · refine ⟨i, ?_, haddress, hrow⟩
          rw [hothers r.ruleKey r.hash fun r' hr' heq => hnew (List.mem_map.2 ⟨r', hr', heq⟩),
            get?_set, if_pos (show (r.ruleKey, r.hash) = i.address from haddress.symm)]
        · exact hrestored r hr
      · rw [hothers k id fun r hr => hne r (List.mem_cons_of_mem row hr), get?_set,
          if_neg fun heq => hne row List.mem_cons_self (haddress.symm.trans heq.symm)]

end Cache

namespace Shared

/-- A start from the store with the rules that are listed: the number of instances that are
restored, and the cache with them. -/
def warm? (d : Shared) (rules : List Rule) : Option (Nat × Cache) :=
  ({} : Cache).restore? d.state rules d.store.listing

theorem Saved.mem_listing_iff {d : Shared} (h : Saved d) {row : Row} :
    row ∈ d.store.listing ↔ ∃ k id i, d.cache.get? k id = some i ∧ row = .ofInstance i := by
  rw [Store.mem_listing_iff, h.exact]
  simp only [Cache.mem_snapshot_iff]
  exact ⟨fun ⟨i, ⟨k, id, hi⟩, hrow⟩ => ⟨k, id, i, hi, hrow⟩,
    fun ⟨k, id, i, hi, hrow⟩ => ⟨i, ⟨k, id, hi⟩, hrow⟩⟩

/-- The store lists as many rows as there are instances. -/
theorem Saved.length_listing {d : Shared} (h : Saved d) :
    d.store.listing.length = d.cache.snapshot.length := by
  have hperm : (d.store.listing.map Row.address).Perm
      (d.cache.snapshot.map fun i => (Row.ofInstance i).address) := by
    refine (List.perm_ext_iff_of_nodup (Store.nodup_listing h.tidy) h.nodup_rows).2 fun a => ?_
    simp only [List.mem_map, Store.mem_listing_iff, h.exact]
    exact ⟨fun ⟨row, ⟨i, hi, hrow⟩, ha⟩ => ⟨i, hi, hrow ▸ ha⟩,
      fun ⟨i, hi, ha⟩ => ⟨_, ⟨i, hi, rfl⟩, ha⟩⟩
  simpa using hperm.length_eq

/-- **Starting again.** A start restores every instance that has its row. -/
theorem warm_of_saved {d : Shared} (h : Saved d) {rules : List Rule}
    (hroom : ∀ i ∈ d.cache.snapshot, Cache.HasRoom d.state rules i.ruleKey) :
    ∃ c', d.warm? rules = some (d.cache.snapshot.length, c') ∧
      ∀ k id, (c'.get? k id).map (fun i => (i.id, Row.ofInstance i)) =
        (d.cache.get? k id).map fun i => (i.id, Row.ofInstance i) := by
  have hfits : ∀ row ∈ d.store.listing, Cache.HasRoom d.state rules row.ruleKey := by
    intro row hrow
    obtain ⟨k, id, i, hi, rfl⟩ := h.mem_listing_iff.1 hrow
    exact hroom i (Cache.mem_snapshot_iff.2 ⟨k, id, hi⟩)
  have hhash : ∀ row ∈ d.store.listing, row.labels.id = row.hash := by
    intro row hrow
    obtain ⟨k, id, i, -, rfl⟩ := h.mem_listing_iff.1 hrow
    rfl
  obtain ⟨c', hc', hrestored, hothers⟩ :=
    Cache.restore_rows (Store.nodup_listing h.tidy) hhash hfits 0 {}
  refine ⟨c', ?_, fun k id => ?_⟩
  · rw [warm?, Cache.restore?_eq, hc', Nat.zero_add, h.length_listing]
  · cases hi : d.cache.get? k id with
    | some i =>
        obtain ⟨hk, hid⟩ := Prod.mk.inj (h.address_ofInstance hi)
        obtain ⟨j, hj, haddress, hrow⟩ :=
          hrestored _ (h.mem_listing_iff.2 ⟨k, id, i, hi, rfl⟩)
        rw [hk, hid] at hj
        have hj' : j.id = i.id :=
          (congrArg Prod.snd haddress).trans (hid.trans (h.named k id i hi).id.symm)
        rw [hj, Option.map_some, Option.map_some, hj', hrow]
    | none =>
        rw [hothers k id fun row hrow heq => ?_]
        · rfl
        -- the row would be that of a cached instance
        obtain ⟨k', id', i, hi', rfl⟩ := h.mem_listing_iff.1 hrow
        obtain ⟨rfl, rfl⟩ := Prod.mk.inj ((h.address_ofInstance hi').symm.trans heq)
        cases hi.symm.trans hi'

/-- **Saving everything and starting again.** After any calls on an engine that begins with
nothing, when everything has been saved, a start from the store restores as many instances
as are cached. Each is there under its rule and identity with the row that it had, that is
with its org, rule, labels, state, reason, start, end and last evaluation, and there is no
other. Only the window of a listed rule must not be too large to be set up. -/
theorem warm_of_persist {d : Shared} (hcache : d.cache = {}) (hstore : d.store = {})
    (cs : List StateCall) {rules : List Rule}
    (hroom : ∀ i ∈ (d.calls (cs ++ [.persist])).cache.snapshot,
      Cache.HasRoom d.state rules i.ruleKey) :
    ∃ c', (d.calls (cs ++ [.persist])).warm? rules =
        some ((d.calls (cs ++ [.persist])).cache.snapshot.length, c') ∧
      ∀ k id, (c'.get? k id).map (fun i => (i.id, Row.ofInstance i)) =
        ((d.calls (cs ++ [.persist])).cache.get? k id).map fun i => (i.id, Row.ofInstance i) := by
  have hstart : Mirrors d :=
    ⟨hcache ▸ Cache.named_empty, hstore ▸ Store.tidy_empty, fun row hrow => by
      rw [hstore] at hrow
      cases hrow⟩
  obtain ⟨hbefore, hstate⟩ := mirrors_calls hstart cs
  have hcalls : d.calls (cs ++ [.persist]) = (d.calls cs).call .persist := by
    unfold calls
    rw [List.foldl_append]
    rfl
  rw [hcalls] at hroom ⊢
  obtain ⟨hsaved, hstate'⟩ := saved_persist hbefore
  exact warm_of_saved hsaved (by rw [hstate', hstate]; exact hroom)

/-- A rule that is evaluated on two hosts. -/
def twoHostRule : Rule := { uid := "a" }

/-- What it finds of its hosts at a time in seconds. -/
def found (hosts : List (String × Status)) (seconds : Int) : List Verdict :=
  hosts.map fun (host, status) =>
    { labels := (∅ : Labels).insert "host" host, status, time := ⟨seconds * nanosPerSecond⟩ }

/-- One host of the rule is dropped as stale, and another rule is reset. -/
def upsAndDowns : List StateCall :=
  [.process twoHostRule (found [("web", .alerting), ("db", .normal)] 0) ∅,
    .process { uid := "b" } (found [("web", .noData)] 0) ∅, .persist,
    .setClock ⟨60 * nanosPerSecond⟩,
    .process twoHostRule (found [("web", .alerting)] 60) ∅, .reset ⟨1, "b"⟩ none]

/-- The identity of the host that stays. -/
def webId : String := (twoHostRule.expand ∅ ((∅ : Labels).insert "host" "web")).id

theorem warm_of_persist_upsAndDowns :
    ∃ c', (({ clock := .epoch } : Shared).calls (upsAndDowns ++ [.persist])).warm?
        [twoHostRule] = some (1, c') ∧
      (c'.get? ⟨1, "a"⟩ webId).map (fun i => (i.status, i.startsAt, i.lastEvaluation)) =
        some (.alerting, some .epoch, ⟨60 * nanosPerSecond⟩) := by
  have hkeys : ((({ clock := .epoch } : Shared).calls
      (upsAndDowns ++ [.persist])).cache.snapshot.map Instance.ruleKey) = [⟨1, "a"⟩] := by
    decide +kernel
  have hroom : ∀ i ∈ (({ clock := .epoch } : Shared).calls
      (upsAndDowns ++ [.persist])).cache.snapshot, Cache.HasRoom {} [twoHostRule] i.ruleKey := by
    intro i hi
    have hkey : i.ruleKey = ⟨1, "a"⟩ := List.mem_singleton.1 (hkeys ▸ List.mem_map_of_mem hi)
    rw [hkey]
    exact ⟨twoHostRule, by decide +kernel, by decide⟩
  obtain ⟨c', hc', hentries⟩ := warm_of_persist (d := { clock := .epoch }) rfl rfl upsAndDowns hroom
  have hcount : (({ clock := .epoch } : Shared).calls
      (upsAndDowns ++ [.persist])).cache.snapshot.length = 1 := by
    simpa using congrArg List.length hkeys
  have hcached : ((({ clock := .epoch } : Shared).calls
      (upsAndDowns ++ [.persist])).cache.get? ⟨1, "a"⟩ webId).map
        (fun i => (i.status, i.startsAt, i.lastEvaluation)) =
      some (.alerting, some .epoch, ⟨60 * nanosPerSecond⟩) := by decide +kernel
  have hfields := congrArg (Option.map fun e : String × Row =>
    (e.2.status, e.2.since, e.2.lastEvaluation)) (hentries ⟨1, "a"⟩ webId)
  rw [Option.map_map, Option.map_map] at hfields
  exact ⟨c', hcount ▸ hc', hfields.trans hcached⟩

/-- Its breach has to last longer than a history can. -/
def patientRule : Rule := { uid := "a", intervalSeconds := 1, holdFor := .ofSeconds (1 <<< 64 - 1) }

/-- A start breaks off where a rule asks for a window that cannot be set up, even if the
instance already has one. -/
theorem warm_without_room :
    let d := ({ clock := .epoch } : Shared).calls
      [.process twoHostRule (found [("web", .alerting)] 0) ∅,
        .process patientRule (found [("web", .normal)] 10) ∅, .persist]
    d.cache.snapshot.map (fun i => (i.ruleKey, i.lastEvaluation)) =
        [(patientRule.key, ⟨10 * nanosPerSecond⟩)] ∧
      (d.warm? [patientRule]).isNone = true := by
  decide +kernel

end Shared

namespace Simulation.World

/-- A world starts in that way as long as its store and its rule source answer at once. -/
theorem warm_eq {w : World} (hstore : w.outages = []) (hlists : w.source.failure = none)
    (hprompt : w.source.delays = []) :
    w.warm = match w.system.shared.warm? w.source.rules with
      | none => (.overflow, w.mapShared fun d => { d with cache := {} })
      | some (n, cache) => settled (.count n) (w.mapShared fun d => { d with cache }) := by
  have hwait : (w.mapShared fun d => { d with cache := {} }).awaitListing =
      w.mapShared fun d => { d with cache := {} } := by
    unfold awaitListing Source.nextDelay mapShared
    dsimp only
    rw [hprompt]
  have hasks : w.outages.listsOrgs = true := by
    rw [hstore]
    rfl
  have horgs : w.system.shared.store.orgs.filter w.outages.lists = w.system.shared.store.orgs :=
    List.filter_eq_self.2 fun org _ => by rw [hstore]; rfl
  have hlisting : w.source.listing? = some (.ofListing w.source.rules w.source.folders) := by
    rw [Source.listing?, hlists]
  unfold warm
  dsimp only
  rw [hwait]
  simp only [mapShared, hasks, hlisting, horgs, Bool.not_true, Bool.false_eq_true, if_false]
  rfl

end Simulation.World

end Vigil
