import Vigil.Proofs.Engine.Reset

/-!
# Versions that are merged

The mailbox of a routine keeps the highest of the versions that come in between two looks. So
the routine may be told of each version or of the last few at once, before, while or after it
clears its rule. Wherever it comes to rest it is at the highest of all, its own included. What
it leaves of its rule is what one reset leaves if it was at a positive version when it took up a
higher one (`Worker.Raised`), and else what there was (`Worker.Stage`). Which of the two it is
depends on the versions alone exactly if the routine had one before, or there is but one to take
up, or there is nothing to reset (`Worker.settled_of_moves`). Otherwise a routine without a
version takes up the first that it is told of with the instances that it finds, and they outlive
it only if there is no second (`Worker.merged_and_unmerged`).
-/

namespace Vigil

theorem Table.eq_empty_of_values {κ : Type u} {α : Type v} [Ord κ] {t : Table κ α}
    (h : t.values = []) : t = ∅ := by
  obtain ⟨entries, hsorted⟩ := t
  obtain rfl : entries = [] := List.map_eq_nil_iff.1 h
  rfl

/-- A move of a routine that has no evaluation, or of those that send it versions. -/
inductive UpdateMove where
  | post (version : Int)
  /-- The routine looks at its mailboxes. -/
  | wake
  /-- The store answers for one of the rows that are waited for. -/
  | answer (which : Nat)
  /-- The notifier has taken the closing batch. -/
  | deliver
deriving DecidableEq

/-- The versions that were sent, in order. -/
def UpdateMove.posted (ms : List UpdateMove) : List Int :=
  ms.filterMap fun
    | post version => some version
    | _ => none

/-- The instances whose rows are waited for. -/
def Phase.awaited : Phase → List Instance
  | .erasing erasure _ => erasure.waiting
  | _ => []

/-- The answers that are waited for, of the store and of the notifier. -/
def Phase.calls : Phase → Nat
  | .erasing erasure _ => erasure.waiting.length + 1
  | .closing _ => 1
  | _ => 0

def Phase.isIdle : Phase → Bool
  | .idle => true
  | _ => false

theorem Phase.isIdle_iff {p : Phase} : p.isIdle = true ↔ p = .idle := by
  cases p <;> simp [isIdle]

namespace Worker

/-- One move. The store deletes the rows of which `ok` says so. -/
def move? (ok : Instance → Bool) (root : Option StopReason) (s : Worker × Shared) :
    UpdateMove → Option (Worker × Shared)
  | .post version =>
    match s.1.handle.post root version with
    | (.ok (), handle) => some ({ s.1 with handle }, s.2)
    | (.error _, _) => none
  | .wake => s.1.step? root .wake s.2
  | .answer which =>
    s.1.phase.awaited[which]?.bind fun i => s.1.step? root (.stored which (ok i)) s.2
  | .deliver => s.1.step? root .delivered s.2

def moves? (ok : Instance → Bool) (root : Option StopReason) (s : Worker × Shared)
    (ms : List UpdateMove) : Option (Worker × Shared) :=
  ms.foldlM (move? ok root) s

/-- The routine is at its mailboxes, and no version is in them. -/
structure AtRest (w : Worker) : Prop where
  phase : w.phase = .idle
  update : w.handle.update = none

instance : DecidablePred AtRest := fun w =>
  decidable_of_iff (w.phase.isIdle = true ∧ w.handle.update = none)
    ⟨fun h => ⟨Phase.isIdle_iff.1 h.1, h.2⟩, fun h => ⟨Phase.isIdle_iff.2 h.phase, h.update⟩⟩

/-- Nor is there an evaluation, or a stop. -/
structure Quiet (root : Option StopReason) (w : Worker) : Prop extends AtRest w where
  unstopped : w.handle.reason root = none
  pending : w.handle.pending = none

/-- A routine comes to rest at `s'`, told of `posted` in some order. -/
def Settles (ok : Instance → Bool) (root : Option StopReason) (s : Worker × Shared)
    (posted : List Int) (s' : Worker × Shared) : Prop :=
  ∃ ms, (UpdateMove.posted ms).Perm posted ∧ moves? ok root s ms = some s' ∧ s'.1.AtRest

/-- In this move a routine that is at a positive version takes up a higher one. -/
def Raises (v : Worker) : UpdateMove → Prop
  | .wake => ∃ version, v.handle.update = some version ∧ 0 < v.version ∧ v.version < version
  | _ => False

/-- In one of the moves it does so. -/
def Raised (ok : Instance → Bool) (root : Option StopReason) (s : Worker × Shared)
    (ms : List UpdateMove) : Prop :=
  ∃ before m after t, ms = before ++ m :: after ∧ moves? ok root s before = some t ∧ t.1.Raises m

/-- The version that a routine is at when it is done with what it has begun. -/
def heading (w : Worker) : Int := (w.phase.next?.bind Resume.version?).getD w.version

/-- The version that it is at when it has taken the one in its mailbox, too. -/
def newest (w : Worker) : Int := w.handle.update.elim w.heading (max w.heading)

variable {ok : Instance → Bool} {root : Option StopReason} {w v v' : Worker} {d e : Shared}
  {posted : List Int} {version : Int} {s s' t : Worker × Shared} {m : UpdateMove}
  {ms ms' : List UpdateMove} {raised : Prop}

theorem moves?_append (ms ms' : List UpdateMove) :
    moves? ok root s (ms ++ ms') = (moves? ok root s ms).bind (moves? ok root · ms') :=
  List.foldlM_append

theorem moves?_singleton (m : UpdateMove) : moves? ok root s [m] = move? ok root s m :=
  Desk.foldlM_concat _ s [] m

theorem raises_iff (hupdate : v.handle.update = some version) :
    v.Raises .wake ↔ 0 < v.version ∧ v.version < version := by
  constructor
  · rintro ⟨version', hversion', hbetween⟩
    obtain rfl := Option.some.inj (hupdate.symm.trans hversion')
    exact hbetween
  · exact fun hbetween => ⟨version, hupdate, hbetween⟩

theorem not_raises_of_none (hnone : v.handle.update = none) : ¬ v.Raises .wake := by
  rintro ⟨version, hversion, -⟩
  cases hnone.symm.trans hversion

theorem raised_nil : ¬ Raised ok root s [] := by
  rintro ⟨before, m, after, -, heq, -⟩
  exact absurd heq.symm (List.append_ne_nil_of_right_ne_nil before (List.cons_ne_nil m after))

theorem raised_snoc (h : moves? ok root s ms = some t) :
    Raised ok root s (ms ++ [m]) ↔ Raised ok root s ms ∨ t.1.Raises m := by
  constructor
  · rintro ⟨before, n, after, u, heq, hu, hraises⟩
    rcases List.eq_nil_or_concat after with rfl | ⟨after, last, rfl⟩
    · obtain ⟨rfl, hlast⟩ := List.append_inj' heq rfl
      obtain rfl := List.singleton_inj.1 hlast
      exact Or.inr (Option.some.inj (h.symm.trans hu) ▸ hraises)
    · rw [List.concat_eq_append, ← List.cons_append, ← List.append_assoc] at heq
      obtain ⟨rfl, -⟩ := List.append_inj' heq rfl
      exact Or.inl ⟨before, n, after, u, rfl, hu, hraises⟩
  · rintro (⟨before, n, after, u, rfl, hu, hraises⟩ | hraises)
    · exact ⟨before, n, after ++ [m], u, by simp, hu, hraises⟩
    · exact ⟨ms, m, [], t, rfl, h, hraises⟩

theorem posted_append (ms ms' : List UpdateMove) :
    UpdateMove.posted (ms ++ ms') = UpdateMove.posted ms ++ UpdateMove.posted ms' :=
  List.filterMap_append

theorem Settles.after {versions : List Int} (h : Settles ok root s' versions t)
    (hrun : moves? ok root s ms = some s')
    (hperm : (UpdateMove.posted ms ++ versions).Perm posted) : Settles ok root s posted t := by
  obtain ⟨ms', hms', hrun', hrest⟩ := h
  refine ⟨ms ++ ms', ?_, ?_, hrest⟩
  · rw [posted_append]
    exact (hms'.append_left _).trans hperm
  · rw [moves?_append, hrun]
    exact hrun'

/-! ## What a routine keeps in mind -/

/-- What a routine `v` has come to from `w`, the versions `posted` having been sent. -/
structure Heads (root : Option StopReason) (w : Worker) (posted : List Int) (v : Worker) :
    Prop where
  key : v.key = w.key
  lastRule : v.lastRule = w.lastRule
  unstopped : v.handle.reason root = none
  pending : v.handle.pending = none
  /-- The version is its first one or one that was sent, and not lower than the first. -/
  held : v.version ∈ w.version :: posted
  le : w.version ≤ v.version
  slot : ∀ version, v.handle.update = some version → version ∈ posted
  permit : v.handle.update.isSome = true → v.handle.updatePermit = true

/-- From `v` to `v'` a routine is on its way to a version, or at it. -/
structure Adopts (v v' : Worker) (version : Int) : Prop where
  handle : v'.handle = v.handle
  lastRule : v'.lastRule = v.lastRule
  heading : v'.heading = version
  version : v'.version = v.version ∨ v'.version = version

theorem Heads.adopts (h : Heads root w posted v) (ha : Adopts v v' version)
    (hposted : version ∈ posted) (hle : w.version ≤ version) : Heads root w posted v' where
  key := (congrArg Handle.key ha.handle).trans h.key
  lastRule := ha.lastRule.trans h.lastRule
  unstopped := ha.handle ▸ h.unstopped
  pending := ha.handle ▸ h.pending
  held := by
    rcases ha.version with hsame | hnew
    · exact hsame ▸ h.held
    · exact hnew ▸ List.mem_cons_of_mem _ hposted
  le := by
    rcases ha.version with hsame | hnew
    · exact hsame ▸ h.le
    · exact hnew ▸ hle
  slot := ha.handle ▸ h.slot
  permit := ha.handle ▸ h.permit

theorem Heads.quiet (hw : Quiet root w) : Heads root w [] w where
  key := rfl
  lastRule := rfl
  unstopped := hw.unstopped
  pending := hw.pending
  held := List.mem_singleton_self _
  le := Int.le_refl _
  slot version hslot := by cases hw.update.symm.trans hslot
  permit hslot := by rw [hw.update] at hslot; cases hslot

/-- The mailbox for versions has been emptied. -/
theorem Heads.withoutUpdate (h : Heads root w posted v) :
    Heads root w posted { v with handle := v.handle.withoutUpdate } :=
  ⟨h.key, h.lastRule, h.unstopped, h.pending, h.held, h.le, nofun, nofun⟩

/-! ## What is left of the rule -/

/-- From `d` to `d'` rule `k` has been reset once. -/
structure Cleared (ok : Instance → Bool) (k : RuleKey) (d d' : Shared) : Prop where
  cache : d'.cache = (d.cache.removeRule k).2
  store : d'.store = d.store.deleteAll ((d.cache.ofRule k).values.filter ok)
  batches : d'.batches = d.batches ++ d.closings k (d.cache.ofRule k).values

/-- Some positive version, the first one or one that was sent, is lower than another that was
sent. -/
def Overtaken (version : Int) (posted : List Int) : Prop :=
  ∃ a ∈ version :: posted, ∃ b ∈ posted, version ≤ a ∧ 0 < a ∧ a < b

/-- More versions may have been sent. -/
theorem Overtaken.mono {posted' : List Int} (h : Overtaken version posted)
    (hsub : ∀ x ∈ posted, x ∈ posted') : Overtaken version posted' := by
  obtain ⟨a, ha, b, hb, hlt⟩ := h
  exact ⟨a, List.mem_cons.2 ((List.mem_cons.1 ha).imp_right (hsub a)), b, hsub b hb, hlt⟩

/-- How far the rule has been reset. It is, if the routine has taken up a higher version than a
positive one that it was at. -/
inductive Stage (ok : Instance → Bool) (w : Worker) (d : Shared) (posted : List Int)
    (raised : Prop) : Worker × Shared → Prop where
  /-- It has not. A routine that had a version is still at it. -/
  | kept {v : Worker} (hphase : v.phase = .idle)
      (hversion : 0 < w.version → v.version = w.version) (hraised : ¬ raised) :
      Stage ok w d posted raised (v, d)
  | erasing {v : Worker} {version : Int} {xs : List (Instance × Bool)} {rest : List Instance}
      (hphase : v.phase =
        .erasing ⟨w.lastRule, (d.cache.ofRule w.key).values, rest⟩ (.adopt version))
      (hrest : rest ≠ []) (hperm : (xs.map Prod.fst ++ rest).Perm (d.cache.ofRule w.key).values)
      (hok : ∀ x ∈ xs, x.2 = ok x.1) (hposted : version ∈ posted) (hle : w.version ≤ version)
      (hraised : raised) :
      Stage ok w d posted raised (v, { d with cache := (d.cache.removeRule w.key).2 }.served xs)
  | closing {v : Worker} {d' : Shared} {version : Int}
      (hphase : v.phase = .closing (.adopt version)) (hcleared : Cleared ok w.key d d')
      (hposted : version ∈ posted) (hle : w.version ≤ version) (hraised : raised) :
      Stage ok w d posted raised (v, d')
  | cleared {v : Worker} {d' : Shared} (hphase : v.phase = .idle)
      (hcleared : Cleared ok w.key d d') (hraised : raised) :
      Stage ok w d posted raised (v, d')

/-- The rows that are gone when all have been answered for. -/
theorem deleteAll_served (st : Store) {xs : List (Instance × Bool)} {removed : List Instance}
    (hperm : (xs.map Prod.fst).Perm removed) (hok : ∀ x ∈ xs, x.2 = ok x.1) :
    st.deleteAll ((xs.filter (·.2)).map (·.1)) = st.deleteAll (removed.filter ok) := by
  have hfilter : (xs.filter (·.2)).map (·.1) = (xs.map Prod.fst).filter ok := by
    rw [List.filter_map]
    exact congrArg _ (List.filter_congr fun x hx => hok x hx)
  rw [hfilter]
  exact st.deleteAll_perm (hperm.filter ok)

/-- When all rows have been answered for, the rule has been reset but for the closing batch,
which is sent if there is one. -/
theorem stage_closeAlerts {xs : List (Instance × Bool)} (hkey : v.key = w.key)
    (hperm : (xs.map Prod.fst).Perm (d.cache.ofRule w.key).values)
    (hok : ∀ x ∈ xs, x.2 = ok x.1) (hposted : version ∈ posted) (hle : w.version ≤ version)
    (hraised : raised)
    (hs : s = v.closeAlerts (d.cache.ofRule w.key).values (.adopt version)
      (d.wiped w.key w.lastRule xs)) :
    Adopts v s.1 version ∧ Stage ok w d posted raised s := by
  have hbatches : s.2.batches = d.batches ++ d.closings w.key (d.cache.ofRule w.key).values := by
    rw [hs, batches_closeAlerts, Shared.batches_wiped, hkey]
    rfl
  have hstore := deleteAll_served d.store hperm hok
  rw [closeAlerts_eq] at hs
  split at hs
  · subst hs
    exact ⟨⟨rfl, rfl, rfl, Or.inr rfl⟩, .cleared rfl ⟨rfl, hstore, hbatches⟩ hraised⟩
  · subst hs
    exact ⟨⟨rfl, rfl, rfl, Or.inl rfl⟩,
      .closing rfl ⟨rfl, hstore, hbatches⟩ hposted hle hraised⟩

/-- A routine that has not reset its rule starts to. -/
theorem stage_clear (hkey : v.key = w.key) (hlast : v.lastRule = w.lastRule)
    (hposted : version ∈ posted) (hle : w.version ≤ version) (hraised : raised)
    (hs : s = v.clear (.adopt version) d) :
    Adopts v s.1 version ∧ Stage ok w d posted raised s := by
  by_cases hnone : (d.cache.ofRule v.key).values = []
  · rw [clear_of_none hnone, hkey, hlast] at hs
    rw [hkey] at hnone
    exact stage_closeAlerts hkey (by rw [hnone]; exact .refl _) (List.forall_mem_nil _) hposted
      hle hraised hs
  · rw [clear_of_removed hnone, hkey] at hs
    rw [hkey] at hnone
    subst hs
    refine ⟨⟨rfl, rfl, rfl, Or.inl rfl⟩, ?_⟩
    rw [← Shared.served_nil { d with cache := (d.cache.removeRule w.key).2 }]
    exact .erasing (by rw [awaiting, hlast]) hnone (.refl _) (List.forall_mem_nil _) hposted hle
      hraised

theorem Stage.mono {posted' : List Int} {raised' : Prop} (h : Stage ok w d posted raised (v, e))
    (hphase : v'.phase = v.phase) (hversion : v'.version = v.version)
    (hsub : ∀ x ∈ posted, x ∈ posted') (hraised : raised' ↔ raised) :
    Stage ok w d posted' raised' (v', e) := by
  cases h with
  | kept hidle hkept hnot =>
      exact .kept (hphase.trans hidle) (fun hpos => hversion.trans (hkept hpos))
        (mt hraised.1 hnot)
  | erasing herasing hrest hperm hok hposted hle h =>
      exact .erasing (hphase.trans herasing) hrest hperm hok (hsub _ hposted) hle (hraised.2 h)
  | closing hclosing hcleared hposted hle h =>
      exact .closing (hphase.trans hclosing) hcleared (hsub _ hposted) hle (hraised.2 h)
  | cleared hidle hcleared h => exact .cleared (hphase.trans hidle) hcleared (hraised.2 h)

/-- At its mailboxes a routine has reset the rule once or not at all. -/
theorem Stage.of_idle (h : Stage ok w d posted raised s) (hidle : s.1.phase = .idle) :
    (¬ raised ∧ s.2 = d ∧ (0 < w.version → s.1.version = w.version)) ∨
      raised ∧ Cleared ok w.key d s.2 := by
  cases h with
  | kept _ hversion hnot => exact Or.inl ⟨hnot, rfl, hversion⟩
  | cleared _ hcleared hraised => exact Or.inr ⟨hraised, hcleared⟩
  | erasing hphase => cases hidle.symm.trans hphase
  | closing hphase => cases hidle.symm.trans hphase

/-! ## Moves -/

/-- What a run keeps. -/
structure Merged (ok : Instance → Bool) (root : Option StopReason) (w : Worker) (d : Shared)
    (posted : List Int) (raised : Prop) (s : Worker × Shared) : Prop where
  heads : Heads root w posted s.1
  newest : s.1.newest = posted.foldl max w.version
  overtaken : raised → Overtaken w.version posted
  stage : Stage ok w d posted raised s

theorem heading_of_idle (h : v.phase = .idle) : v.heading = v.version := by
  unfold heading
  rw [h]
  rfl

theorem heading_of_next (h : v.phase.next? = some (.adopt version)) : v.heading = version := by
  unfold heading
  rw [h]
  rfl

theorem newest_of_none (h : v.handle.update = none) : v.newest = v.heading := by
  unfold newest
  rw [h]
  rfl

theorem newest_of_some (h : v.handle.update = some version) :
    v.newest = max v.heading version := by
  unfold newest
  rw [h]
  rfl

theorem Adopts.newest_eq (h : Adopts v v' version) (hv : v.heading = version) :
    v'.newest = v.newest := by
  unfold newest
  rw [h.handle, h.heading, hv]

/-- On the way to a version a routine keeps what it knows. -/
theorem Merged.onward (h : Merged ok root w d posted raised s)
    (hs : Adopts s.1 s'.1 version ∧ Stage ok w d posted raised s')
    (hheading : s.1.heading = version) (hposted : version ∈ posted) (hle : w.version ≤ version) :
    Merged ok root w d posted raised s' where
  heads := h.heads.adopts hs.1 hposted hle
  newest := (hs.1.newest_eq hheading).trans h.newest
  overtaken := h.overtaken
  stage := hs.2

/-- A routine with one more version in its mailbox. -/
def told (v : Worker) (version : Int) : Worker :=
  { v with handle := { v.handle with
      update := some (v.handle.update.elim version (max · version)), updatePermit := true } }

theorem move?_post (hreason : v.handle.reason root = none) (version : Int) :
    move? ok root (v, e) (.post version) = some (v.told version, e) := by
  unfold move? Handle.post told
  dsimp only
  rw [Handle.isStopped_eq_false_iff.2 (Option.or_eq_none_iff.1 hreason)]
  cases v.handle.update with
  | none => rfl
  | some u => rfl

/-- **A version.** -/
theorem merged_post (h : Merged ok root w d posted raised s)
    (hmove : move? ok root s (.post version) = some s') :
    Merged ok root w d (posted ++ [version]) raised s' := by
  obtain ⟨v, e⟩ := s
  rw [move?_post h.heads.unstopped] at hmove
  obtain rfl := Option.some.inj hmove
  have hsub : ∀ x ∈ posted, x ∈ posted ++ [version] := fun x => List.mem_append_left _
  have hlast : version ∈ posted ++ [version] := by simp
  refine ⟨⟨h.heads.key, h.heads.lastRule, h.heads.unstopped, h.heads.pending, ?_, h.heads.le, ?_,
    fun _ => rfl⟩, ?_, fun hraised => (h.overtaken hraised).mono hsub,
    h.stage.mono rfl rfl hsub .rfl⟩
  · exact List.mem_cons.2 ((List.mem_cons.1 h.heads.held).imp_right (hsub _))
  · rintro x hx
    obtain rfl := Option.some.inj hx
    cases hupdate : v.handle.update with
    | none => exact hlast
    | some u =>
        show max u version ∈ posted ++ [version]
        rcases Int.le_total u version with hle | hle
        · rw [Int.max_eq_right hle]
          exact hlast
        · rw [Int.max_eq_left hle]
          exact hsub u (h.heads.slot u hupdate)
  · rw [List.foldl_append, ← h.newest, List.foldl_cons, List.foldl_nil]
    refine (newest_of_some rfl).trans ?_
    cases hupdate : v.handle.update with
    | none => exact congrArg (max · version) (newest_of_none hupdate).symm
    | some u =>
        rw [newest_of_some hupdate]
        exact (Int.max_assoc ..).symm

/-- A higher version that is taken up overtakes the one before it. -/
theorem Merged.overtaken_of_raises (h : Merged ok root w d posted raised (v, e))
    (hraised : raised ∨ v.Raises .wake) : Overtaken w.version posted := by
  rcases hraised with hraised | ⟨version, hslot, hpos, hlt⟩
  · exact h.overtaken hraised
  · exact ⟨v.version, h.heads.held, version, h.heads.slot version hslot, h.heads.le, hpos, hlt⟩

/-- A look that comes upon a version. -/
theorem merged_onUpdate (h : Merged ok root w d posted raised (v, e)) (hidle : v.phase = .idle)
    (hupdate : v.handle.update = some version)
    (hs : s = ({ v with handle := v.handle.withoutUpdate } : Worker).onUpdate version e) :
    Merged ok root w d posted (raised ∨ v.Raises .wake) s := by
  have hheads : Heads root w posted v := h.heads
  have htaken := hheads.withoutUpdate
  have hposted := hheads.slot version hupdate
  have hnewest : max v.version version = posted.foldl max w.version := by
    rw [← heading_of_idle hidle, ← newest_of_some hupdate]
    exact h.newest
  have hraises := raises_iff hupdate
  have hover := h.overtaken_of_raises
  have hstage := h.stage
  unfold onUpdate at hs
  dsimp only at hs
  split at hs
  · rename_i hlower
    subst hs
    have hsame : raised ∨ v.Raises .wake ↔ raised :=
      or_iff_left fun hraises' => Int.not_le.2 (hraises.1 hraises').2 hlower
    refine ⟨htaken, ?_, hover, hstage.mono rfl rfl (fun _ hx => hx) hsame⟩
    exact (newest_of_none rfl).trans
      ((heading_of_idle hidle).trans ((Int.max_eq_left hlower).symm.trans hnewest))
  rename_i hhigher
  rw [Int.max_eq_right (Int.le_of_lt (Int.not_le.1 hhigher))] at hnewest
  have hle : w.version ≤ version := Int.le_trans hheads.le (Int.le_of_lt (Int.not_le.1 hhigher))
  have hadopted : ∀ {v' : Worker}, Adopts { v with handle := v.handle.withoutUpdate } v' version →
      v'.newest = posted.foldl max w.version := fun ha => by
    rw [newest_of_none (ha.handle ▸ rfl), ha.heading, hnewest]
  split at hs
  · rename_i hpos
    have hraised : raised ∨ v.Raises .wake :=
      Or.inr (hraises.2 ⟨hpos, Int.not_le.1 hhigher⟩)
    have hcleared : Adopts { v with handle := v.handle.withoutUpdate } s.1 version ∧
        Stage ok w d posted (raised ∨ v.Raises .wake) s := by
      rcases hstage.of_idle hidle with ⟨-, hkept, -⟩ | ⟨-, hcleared⟩
      · obtain rfl : e = d := hkept
        exact stage_clear htaken.key htaken.lastRule hposted hle hraised hs
      · rw [clear_of_cleared htaken.key hcleared.cache] at hs
        subst hs
        exact ⟨⟨rfl, rfl, rfl, Or.inr rfl⟩, .cleared rfl hcleared hraised⟩
    exact ⟨htaken.adopts hcleared.1 hposted hle, hadopted hcleared.1, hover, hcleared.2⟩
  · rename_i hnone
    subst hs
    have ha : Adopts { v with handle := v.handle.withoutUpdate }
        { v with handle := v.handle.withoutUpdate, version } version :=
      ⟨rfl, rfl, heading_of_idle hidle, Or.inr rfl⟩
    refine ⟨htaken.adopts ha hposted hle, hadopted ha, hover, ?_⟩
    rcases hstage.of_idle hidle with ⟨hnot, hkept, -⟩ | ⟨hraised, hcleared⟩
    · obtain rfl : e = d := hkept
      refine .kept hidle (fun hpos => absurd (Int.lt_of_lt_of_le hpos hheads.le) hnone) ?_
      rintro (hraised | hraises')
      · exact hnot hraised
      · exact hnone (hraises.1 hraises').1
    · exact .cleared hidle hcleared (Or.inl hraised)

/-- A routine at its mailboxes finds the version that is in one. -/
theorem move?_wake (h : Heads root w posted v) (hidle : v.phase = .idle)
    (hslot : v.handle.update = some version) :
    move? ok root (v, e) .wake =
      some (({ v with handle := v.handle.withoutUpdate } : Worker).onUpdate version e) := by
  have hreason : v.handle.reason root = none := h.unstopped
  have hpermit : v.handle.updatePermit = true := h.permit (Option.isSome_of_eq_some hslot)
  have hstep : v.step? root .wake e = v.wake? root e := by
    unfold step?
    rw [hidle]
  refine hstep.trans ?_
  unfold wake?
  simp only [hreason, hpermit, if_true, Handle.takeUpdate, hslot]
  rfl

/-- **A look.** -/
theorem merged_wake (h : Merged ok root w d posted raised s)
    (hmove : move? ok root s .wake = some s') :
    Merged ok root w d posted (raised ∨ s.1.Raises .wake) s' := by
  obtain ⟨v, e⟩ := s
  have hheads : Heads root w posted v := h.heads
  have hidle : v.phase = .idle := by
    unfold move? step? at hmove
    cases hphase : v.phase with
    | idle => rfl
    | _ =>
        rw [hphase] at hmove
        cases hmove
  cases hslot : v.handle.update with
  | some version =>
      rw [move?_wake hheads hidle hslot] at hmove
      exact merged_onUpdate h hidle hslot (Option.some.inj hmove).symm
  | none =>
      have hsame : raised ∨ v.Raises .wake ↔ raised := or_iff_left (not_raises_of_none hslot)
      have hover := h.overtaken_of_raises
      have hlook : Look root v e s' := look_of_wake (wake?_of_idle hidle hmove)
      cases hlook with
      | stop hr => cases hheads.unstopped.symm.trans hr
      | update hupdate => cases hslot.symm.trans hupdate
      | noUpdate =>
          refine ⟨hheads.withoutUpdate, ?_, hover, h.stage.mono rfl rfl (fun _ hx => hx) hsame⟩
          rw [← h.newest]
          exact (newest_of_none rfl).trans (newest_of_none hslot).symm
      | evaluation he => cases hheads.pending.symm.trans he
      | noEvaluation =>
          exact ⟨⟨hheads.key, hheads.lastRule, hheads.unstopped, rfl, hheads.held, hheads.le,
            hheads.slot, hheads.permit⟩, h.newest, hover,
            h.stage.mono rfl rfl (fun _ hx => hx) hsame⟩

/-- **An answer of the store.** -/
theorem merged_answer {which : Nat} (h : Merged ok root w d posted raised s)
    (hmove : move? ok root s (.answer which) = some s') :
    Merged ok root w d posted raised s' := by
  obtain ⟨v, e⟩ := s
  obtain ⟨i, hi, hstep⟩ := Option.bind_eq_some_iff.1 hmove
  have hlast : v.lastRule = w.lastRule := h.heads.lastRule
  cases h.stage with
  | @erasing _ version xs rest hphase hrest hperm hok hposted hle hraised =>
      have hheading : v.heading = version := heading_of_next (congrArg Phase.next? hphase)
      have hself := awaiting_of_phase (hlast ▸ hphase)
      rw [← hself] at hstep
      obtain ⟨j, rest', hj, hperm', hs⟩ := step_awaiting hperm hstep
      obtain rfl : i = j := by
        rw [hphase] at hi
        exact Option.some.inj (hi.symm.trans hj)
      have hok' : ∀ x ∈ xs ++ [(i, ok i)], x.2 = ok x.1 :=
        List.forall_mem_append.2 ⟨hok, List.forall_mem_singleton.2 rfl⟩
      refine h.onward ?_ hheading hposted hle
      split at hs
      · rename_i hdone
        rw [hdone, List.append_nil] at hperm'
        rw [hlast] at hs
        exact stage_closeAlerts h.heads.key hperm' hok' hposted hle hraised hs
      · rename_i hmore
        subst hs
        exact ⟨⟨rfl, rfl, rfl, Or.inl rfl⟩,
          .erasing (by rw [awaiting, hlast]) hmore hperm' hok' hposted hle hraised⟩
  | kept hphase =>
      rw [hphase] at hi
      cases hi
  | closing hphase =>
      rw [hphase] at hi
      cases hi
  | cleared hphase =>
      rw [hphase] at hi
      cases hi

/-- **The batch has arrived.** -/
theorem merged_deliver (h : Merged ok root w d posted raised s)
    (hmove : move? ok root s .deliver = some s') : Merged ok root w d posted raised s' := by
  obtain ⟨v, e⟩ := s
  cases h.stage with
  | closing hphase hcleared hposted hle hraised =>
      rw [closing_cases hphase hmove]
      have hheading : v.heading = _ := heading_of_next (congrArg Phase.next? hphase)
      exact h.onward ⟨⟨rfl, rfl, rfl, Or.inr rfl⟩, .cleared rfl hcleared hraised⟩ hheading
        hposted hle
  | kept hphase =>
      unfold move? step? at hmove
      rw [hphase] at hmove
      cases hmove
  | erasing hphase =>
      unfold move? step? at hmove
      rw [hphase] at hmove
      cases hmove
  | cleared hphase =>
      unfold move? step? at hmove
      rw [hphase] at hmove
      cases hmove

/-- **One move.** -/
theorem merged_move (h : Merged ok root w d posted raised s)
    (hmove : move? ok root s m = some s') :
    Merged ok root w d (posted ++ UpdateMove.posted [m]) (raised ∨ s.1.Raises m) s' := by
  have hother : (raised ∨ False) = raised := or_false raised
  cases m with
  | post version => exact hother.symm ▸ merged_post h hmove
  | wake => exact (List.append_nil posted).symm ▸ merged_wake h hmove
  | answer which => exact (List.append_nil posted).symm ▸ hother.symm ▸ merged_answer h hmove
  | deliver => exact (List.append_nil posted).symm ▸ hother.symm ▸ merged_deliver h hmove

/-- **The moves.** -/
theorem merged_moves (hw : Quiet root w) (h : moves? ok root (w, d) ms = some s) :
    Merged ok root w d (UpdateMove.posted ms) (Raised ok root (w, d) ms) s := by
  induction ms using List.reverseRecOn generalizing s with
  | nil =>
      obtain rfl := Option.some.inj h
      exact ⟨.quiet hw, (newest_of_none hw.update).trans (heading_of_idle hw.phase),
        fun hraised => absurd hraised raised_nil, .kept hw.phase (fun _ => rfl) raised_nil⟩
  | append_singleton ms m ih =>
      rw [moves?_append] at h
      obtain ⟨s, hs, hmove⟩ := Option.bind_eq_some_iff.1 h
      rw [moves?_singleton] at hmove
      rw [posted_append, propext (raised_snoc hs)]
      exact merged_move (ih hs) hmove

/-! ## Coming to rest -/

theorem calls_closeAlerts (v : Worker) (removed : List Instance) (version : Int) (e : Shared) :
    (v.closeAlerts removed (.adopt version) e).1.phase.calls ≤ 1 := by
  rw [closeAlerts_eq]
  split
  · exact Nat.zero_le 1
  · exact Nat.le_refl 1

/-- One of the answers that are waited for can come. It leaves the mailbox alone. -/
theorem exists_answer (h : Merged ok root w d posted raised s) (hbusy : s.1.phase ≠ .idle) :
    ∃ m s', UpdateMove.posted [m] = [] ∧ move? ok root s m = some s' ∧
      s'.1.handle.update = s.1.handle.update ∧ s'.1.phase.calls < s.1.phase.calls := by
  obtain ⟨v, e⟩ := s
  have hlast : v.lastRule = w.lastRule := h.heads.lastRule
  cases h.stage with
  | kept hidle => exact absurd hidle hbusy
  | cleared hidle => exact absurd hidle hbusy
  | @closing _ _ version hphase =>
      refine ⟨.deliver, v.resume (.adopt version) e, rfl, ?_, rfl, ?_⟩
      · unfold move? step?
        rw [hphase]
      · rw [hphase]
        exact Nat.zero_lt_one
  | @erasing _ version xs rest hphase hrest hperm =>
      obtain ⟨i, rest, rfl⟩ := List.exists_cons_of_ne_nil hrest
      have hself := awaiting_of_phase (hlast ▸ hphase)
      obtain ⟨s', hstep⟩ : ∃ s', (v.awaiting (d.cache.ofRule w.key).values (i :: rest)
          (.adopt version)).step? root (.stored 0 (ok i)) _ = some s' :=
        Option.isSome_iff_exists.1 ((isSome_step_awaiting 0 (ok i)).2 (Nat.succ_pos _))
      obtain ⟨j, rest', hj, hperm', hs⟩ := step_awaiting hperm hstep
      obtain rfl : i = j := Option.some.inj hj
      have hless : rest'.length < (i :: rest).length := by
        have hlength := hperm'.length_eq.trans hperm.length_eq.symm
        simp only [List.length_append, List.length_map, List.length_singleton] at hlength
        omega
      rw [hself] at hstep
      refine ⟨.answer 0, s', rfl, ?_, ?_, ?_⟩
      · unfold move?
        rw [hphase]
        exact hstep
      · split at hs
        · rw [hs]
          exact update_closeAlerts ..
        · rw [hs]
          rfl
      · rw [hphase]
        split at hs
        · rw [hs]
          exact Nat.lt_of_le_of_lt (calls_closeAlerts ..) (Nat.succ_lt_succ (Nat.succ_pos _))
        · rw [hs]
          exact Nat.succ_lt_succ hless

/-- With all the answers in, a routine is at its mailboxes. -/
theorem exists_idle (h : Merged ok root w d posted raised s) :
    ∃ ms s' raised', UpdateMove.posted ms = [] ∧ moves? ok root s ms = some s' ∧
      Merged ok root w d posted raised' s' ∧ s'.1.phase = .idle ∧
      s'.1.handle.update = s.1.handle.update := by
  induction hcalls : s.1.phase.calls using Nat.strongRecOn generalizing s raised with
  | ind n ih =>
      by_cases hidle : s.1.phase = .idle
      · exact ⟨[], s, raised, rfl, rfl, h, hidle, rfl⟩
      obtain ⟨m, s₁, hm, hmove, hupdate, hless⟩ := exists_answer h hidle
      have h₁ := merged_move h hmove
      rw [hm, List.append_nil] at h₁
      obtain ⟨ms, s', raised', hms, hrun, h', hidle', hupdate'⟩ := ih _ (hcalls ▸ hless) h₁ rfl
      refine ⟨[m] ++ ms, s', raised', ?_, ?_, h', hidle', hupdate'.trans hupdate⟩
      · rw [posted_append, hm, hms]
        rfl
      · rw [moves?_append, moves?_singleton, hmove]
        exact hrun

theorem update_onUpdate (v : Worker) (version : Int) (e : Shared) :
    (v.onUpdate version e).1.handle.update = v.handle.update := by
  unfold onUpdate
  split
  · rfl
  · split
    · exact update_clear v _ e
    · rfl

/-- A routine can always come to rest without further versions. -/
theorem Merged.exists_rest (h : Merged ok root w d posted raised s) :
    ∃ s', Settles ok root s [] s' := by
  obtain ⟨ms, ⟨v, e⟩, raised₁, hms, hrun, h₁, hidle, -⟩ := exists_idle h
  cases hslot : v.handle.update with
  | none => exact ⟨(v, e), ms, hms ▸ .refl _, hrun, hidle, hslot⟩
  | some version =>
      have hlook : move? ok root (v, e) .wake = _ := move?_wake h₁.heads hidle hslot
      obtain ⟨ms', s', -, hms', hrun', -, hidle', hupdate⟩ := exists_idle (merged_wake h₁ hlook)
      have hsettles : Settles ok root _ [] s' :=
        ⟨ms', hms' ▸ .refl _, hrun', hidle', hupdate.trans (update_onUpdate ..)⟩
      rw [← moves?_singleton] at hlook
      have hlooked : Settles ok root (v, e) [] s' := hsettles.after hlook (.refl _)
      exact ⟨s', hlooked.after hrun (by rw [hms]; exact .refl _)⟩

/-- At rest a routine is at the highest version. -/
theorem Merged.max?_of_rest (h : Merged ok root w d posted raised s) (hrest : s.1.AtRest) :
    (w.version :: posted).max? = some s.1.version := by
  rw [List.max?_cons', ← h.newest, newest_of_none hrest.update, heading_of_idle hrest.phase]

/-- The rules have the same instances and rows, and the same batches have been sent. -/
structure Alike (d d' : Shared) : Prop where
  ofRule : ∀ k, d.cache.ofRule k = d'.cache.ofRule k
  store : d.store = d'.store
  batches : d.batches = d'.batches

theorem Alike.symm {d d' : Shared} (h : Alike d d') : Alike d' d :=
  ⟨fun k => (h.ofRule k).symm, h.store.symm, h.batches.symm⟩

theorem Cleared.alike {k : RuleKey} {d' d'' : Shared} (h : Cleared ok k d d')
    (h' : Cleared ok k d d'') : Alike d' d'' :=
  ⟨fun _ => by rw [h.cache, h'.cache], h.store.trans h'.store.symm,
    h.batches.trans h'.batches.symm⟩

/-- To reset a rule without instances does not show. -/
theorem Cleared.alike_of_none {k : RuleKey} {d' : Shared} (h : Cleared ok k d d')
    (hnone : (d.cache.ofRule k).values = []) : Alike d' d where
  ofRule q := by
    rw [h.cache]
    by_cases hq : q = k
    · subst hq
      exact (Cache.ofRule_setRule d.cache q ∅).trans (Table.eq_empty_of_values hnone).symm
    · exact Cache.ofRule_setRule_of_ne d.cache ∅ hq
  store := by
    rw [h.store, hnone]
    rfl
  batches := by
    rw [h.batches, hnone]
    exact List.append_nil _

/-- What settles whether a rule is reset, whatever the routine is told of and when: there was a
version before, there is but one to take up, or there is nothing to reset. -/
def Foreseen (w : Worker) (d : Shared) (posted : List Int) : Prop :=
  0 < w.version ∨ (∀ a ∈ posted, ∀ b ∈ posted, 0 < a → 0 < b → a = b) ∨
    (d.cache.ofRule w.key).values = []

/-- A version that overtakes another is taken up. -/
theorem Foreseen.none_of_kept (h : Foreseen w d posted) (hover : Overtaken w.version posted)
    (hmax : (w.version :: posted).max? = some version)
    (hkept : 0 < w.version → version = w.version) : (d.cache.ofRule w.key).values = [] := by
  obtain ⟨a, ha, b, hb, hle, hpos, hlt⟩ := hover
  by_cases hhad : 0 < w.version
  · have htop : b ≤ version := (List.max?_eq_some_iff.1 hmax).2 b (List.mem_cons_of_mem _ hb)
    rw [hkept hhad] at htop
    omega
  rcases h with hhad' | hone | hnone
  · exact absurd hhad' hhad
  · have ha' : a ∈ posted := by
      rcases List.mem_cons.1 ha with rfl | ha'
      · exact absurd hpos hhad
      · exact ha'
    exact absurd (hone a ha' b hb hpos (Int.lt_trans hpos hlt)) (Int.ne_of_lt hlt)
  · exact hnone

theorem max?_of_moves (hw : Quiet root w) (hperm : (UpdateMove.posted ms).Perm posted)
    (hrun : moves? ok root (w, d) ms = some s) (hrest : s.1.AtRest) :
    (w.version :: posted).max? = some s.1.version := by
  have hmax := List.max?_eq_some_iff.1 ((merged_moves hw hrun).max?_of_rest hrest)
  refine List.max?_eq_some_iff.2 ⟨(hperm.cons _).mem_iff.1 hmax.1, fun x hx => ?_⟩
  exact hmax.2 x ((hperm.cons _).mem_iff.2 hx)

theorem max?_of_settles (hw : Quiet root w) (h : Settles ok root (w, d) posted s) :
    (w.version :: posted).max? = some s.1.version := by
  obtain ⟨ms, hperm, hrun, hrest⟩ := h
  exact max?_of_moves hw hperm hrun hrest

theorem reset_of_settles (hw : Quiet root w) (h : Settles ok root (w, d) posted s) :
    (s.2 = d ∧ (0 < w.version → s.1.version = w.version)) ∨
      Cleared ok w.key d s.2 ∧ Overtaken w.version posted := by
  obtain ⟨ms, hperm, hrun, hrest⟩ := h
  have hmerged := merged_moves hw hrun
  rcases hmerged.stage.of_idle hrest.phase with ⟨-, hkept⟩ | ⟨hraised, hcleared⟩
  · exact Or.inl hkept
  · exact Or.inr ⟨hcleared, (hmerged.overtaken hraised).mono fun x => hperm.mem_iff.1⟩

/-- Two routines that were told of the same versions. -/
theorem alike_of_settles (hw : Quiet root w) (hf : Foreseen w d posted)
    (h : Settles ok root (w, d) posted s) (h' : Settles ok root (w, d) posted s') :
    Alike s.2 s'.2 := by
  have hmax := max?_of_settles hw h
  have hmax' := max?_of_settles hw h'
  rcases reset_of_settles hw h with ⟨hsame, hkept⟩ | ⟨hcleared, hover⟩
  · rcases reset_of_settles hw h' with ⟨hsame', -⟩ | ⟨hcleared', hover'⟩
    · rw [hsame, hsame']
      exact ⟨fun _ => rfl, rfl, rfl⟩
    · rw [hsame]
      exact (hcleared'.alike_of_none (hf.none_of_kept hover' hmax hkept)).symm
  · rcases reset_of_settles hw h' with ⟨hsame', hkept'⟩ | ⟨hcleared', -⟩
    · rw [hsame']
      exact hcleared.alike_of_none (hf.none_of_kept hover hmax' hkept')
    · exact hcleared.alike hcleared'

/-! ## All at once, or one before -/

theorem posted_map_post (posted : List Int) :
    UpdateMove.posted (posted.map .post) = posted := by
  unfold UpdateMove.posted
  rw [List.filterMap_map]
  exact List.filterMap_some

/-- All versions are sent before the routine looks. -/
theorem exists_posted (ok : Instance → Bool) (hw : Quiet root w) (d : Shared) (posted : List Int) :
    ∃ v, moves? ok root (w, d) (posted.map .post) = some (v, d) ∧ v.phase = .idle ∧
      v.version = w.version ∧ (posted ≠ [] → v.handle.update.isSome = true) := by
  induction posted using List.reverseRecOn with
  | nil => exact ⟨w, rfl, hw.phase, rfl, absurd rfl⟩
  | append_singleton posted version ih =>
      obtain ⟨v, hrun, hidle, hversion, -⟩ := ih
      have hunstopped := (merged_moves hw hrun).heads.unstopped
      refine ⟨v.told version, ?_, hidle, hversion, fun _ => rfl⟩
      rw [List.map_append, moves?_append, hrun, Option.bind_some, List.map_singleton,
        moves?_singleton, move?_post hunstopped]

/-- Without a version, a routine takes one up and leaves the rule as it is. -/
theorem onUpdate_of_none (hnone : ¬0 < v.version) (version : Int) (e : Shared) :
    v.onUpdate version e = ({ v with version := max v.version version }, e) := by
  unfold onUpdate
  split
  · rename_i hlower
    rw [Int.max_eq_left hlower]
  · rename_i hhigher
    rw [Int.max_eq_right (Int.le_of_lt (Int.not_le.1 hhigher))]

theorem exists_adopted (ok : Instance → Bool) (hw : Quiet root w) (d : Shared)
    (hnone : ¬0 < w.version) (hposted : posted ≠ []) :
    ∃ v, moves? ok root (w, d) (posted.map .post ++ [.wake]) = some (v, d) ∧ Quiet root v ∧
      v.key = w.key := by
  obtain ⟨v, hrun, hidle, hversion, hslot⟩ := exists_posted ok hw d posted
  obtain ⟨version, hslot⟩ := Option.isSome_iff_exists.1 (hslot hposted)
  have hlook : move? ok root (v, d) .wake = _ :=
    move?_wake (merged_moves hw hrun).heads hidle hslot
  rw [onUpdate_of_none (hversion ▸ hnone)] at hlook
  have hheads := (merged_wake (merged_moves hw hrun) hlook).heads
  have hadopted := (moves?_append (posted.map .post) [.wake]).trans
    ((congrArg (Option.bind · _) hrun).trans ((moves?_singleton _).trans hlook))
  exact ⟨_, hadopted, ⟨⟨hidle, rfl⟩, hheads.unstopped, hheads.pending⟩, hheads.key⟩

/-- Told of all at once, it keeps the instances. -/
theorem exists_kept (ok : Instance → Bool) (hw : Quiet root w) (d : Shared)
    (hnone : ¬0 < w.version) (hposted : posted ≠ []) :
    ∃ v, Settles ok root (w, d) posted (v, d) := by
  obtain ⟨v, hrun, hquiet, -⟩ := exists_adopted ok hw d hnone hposted
  refine ⟨v, _, ?_, hrun, hquiet.toAtRest⟩
  rw [posted_append, posted_map_post]
  exact .of_eq (List.append_nil posted)

/-- Told of one before a higher one, it resets them. -/
theorem exists_reset {a b : Int} (ok : Instance → Bool) (hw : Quiet root w) (d : Shared)
    (hnone : ¬0 < w.version) (ha : a ∈ posted) (hb : b ∈ posted) (hpos : 0 < a) (hlt : a < b) :
    ∃ s, Settles ok root (w, d) posted s ∧ Cleared ok w.key d s.2 := by
  obtain ⟨v, hfirst, hquiet, hkey⟩ := exists_adopted ok hw d hnone (List.cons_ne_nil a [])
  have hversion : v.version = a := by
    have hmax := max?_of_settles hw ⟨_, .refl _, hfirst, hquiet.toAtRest⟩
    exact (Option.some.inj hmax).symm.trans (Int.max_eq_right (by omega))
  obtain ⟨v', hrun, -⟩ := exists_posted ok hquiet d (posted.erase a)
  obtain ⟨s, hrest⟩ := (merged_moves hquiet hrun).exists_rest
  have hlater : Settles ok root (v, d) (posted.erase a) s :=
    hrest.after hrun (by rw [posted_map_post, List.append_nil])
  refine ⟨s, hlater.after hfirst (List.perm_cons_erase ha).symm, ?_⟩
  rcases reset_of_settles hquiet hlater with ⟨-, hkept⟩ | ⟨hcleared, -⟩
  · have htop := (List.max?_eq_some_iff.1 (max?_of_settles hquiet hlater)).2 b
      (List.mem_cons_of_mem _ ((List.mem_erase_of_ne (Int.ne_of_gt hlt)).2 hb))
    rw [hkept (hversion ▸ hpos), hversion] at htop
    exact absurd htop (Int.not_le.2 hlt)
  · exact hkey ▸ hcleared

/-- To reset a rule with instances shows. -/
theorem Cleared.not_alike {k : RuleKey} {d' : Shared} (h : Cleared ok k d d')
    (hinstances : (d.cache.ofRule k).values ≠ []) : ¬Alike d d' := by
  intro halike
  have hrule := halike.ofRule k
  rw [h.cache] at hrule
  refine hinstances ?_
  rw [hrule]
  exact congrArg Table.values (Cache.ofRule_setRule d.cache k ∅)

/-- What is not foreseen can come out either way. -/
theorem exists_unlike (ok : Instance → Bool) (hw : Quiet root w) (hf : ¬Foreseen w d posted) :
    ∃ s s', Settles ok root (w, d) posted s ∧ Settles ok root (w, d) posted s' ∧
      ¬Alike s.2 s'.2 := by
  obtain ⟨hnone, hmany, hinstances⟩ : ¬0 < w.version ∧
      ¬(∀ a ∈ posted, ∀ b ∈ posted, 0 < a → 0 < b → a = b) ∧
      (d.cache.ofRule w.key).values ≠ [] := by
    unfold Foreseen at hf
    rwa [not_or, not_or] at hf
  obtain ⟨a, ha, b, hb, hpos, hlt⟩ : ∃ a ∈ posted, ∃ b ∈ posted, 0 < a ∧ a < b := by
    by_contra hnot
    refine hmany fun a ha b hb hposa hposb => ?_
    rcases Int.lt_trichotomy a b with hlt | heq | hlt
    · exact absurd ⟨a, ha, b, hb, hposa, hlt⟩ hnot
    · exact heq
    · exact absurd ⟨b, hb, a, ha, hposb, hlt⟩ hnot
  obtain ⟨v, hkept⟩ := exists_kept ok hw d hnone (List.ne_nil_of_mem ha)
  obtain ⟨s, hreset, hcleared⟩ := exists_reset ok hw d hnone ha hb hpos hlt
  exact ⟨(v, d), s, hkept, hreset, hcleared.not_alike hinstances⟩

/-- **Versions that are merged.** A routine that is sent versions, and nothing else, can always
come to rest. There it is at the highest version of all, its own included. Its rule has been
reset once if at some point the routine was at a positive version and took up a higher one, and
is as it was otherwise. Which of the two does not depend on the order that the versions are
sent in, nor on when the routine looks and so on which of them it is never told, exactly if it
had a version, or there is but one to take up, or the rule has no instances. -/
theorem settled_of_moves (ok : Instance → Bool) (hw : Quiet root w) (d : Shared) :
    (∀ ms s, moves? ok root (w, d) ms = some s → ∃ s', Settles ok root s [] s') ∧
    ∀ posted,
      (∀ ms s, (UpdateMove.posted ms).Perm posted → moves? ok root (w, d) ms = some s →
        s.1.AtRest → (w.version :: posted).max? = some s.1.version ∧
          (¬ Raised ok root (w, d) ms ∧ s.2 = d ∨
            Raised ok root (w, d) ms ∧ Cleared ok w.key d s.2)) ∧
      (Foreseen w d posted ↔ ∀ s s', Settles ok root (w, d) posted s →
        Settles ok root (w, d) posted s' → Alike s.2 s'.2) := by
  refine ⟨fun ms s h => ?_, fun posted => ⟨fun ms s hperm h hrest =>
    ⟨max?_of_moves hw hperm h hrest, ?_⟩, ?_⟩⟩
  · exact (merged_moves hw h).exists_rest
  · exact ((merged_moves hw h).stage.of_idle hrest.phase).imp_left (And.imp_right And.left)
  · refine ⟨fun hf s s' => alike_of_settles hw hf, fun halike => ?_⟩
    by_contra hf
    obtain ⟨s, s', h, h', hunlike⟩ := exists_unlike ok hw hf
    exact hunlike (halike s s' h h')

/-- Versions 2 and 3, each taken up by itself, or 3 alone while 2 comes too late. -/
theorem settled_of_moves_twoHosts :
    ∃ s s', Settles (fun _ => true) none (twoHostRoutine, twoHosts) [2, 3] s ∧
      Settles (fun _ => true) none (twoHostRoutine, twoHosts) [2, 3] s' ∧
      s.1.version = 3 ∧ s'.1.version = 3 ∧ Alike s.2 s'.2 ∧
      Cleared (fun _ => true) Shared.twoHostRule.key twoHosts s.2 := by
  have hquiet : Quiet none twoHostRoutine := ⟨⟨rfl, rfl⟩, rfl, rfl⟩
  obtain ⟨s, hs, hrest⟩ : ∃ s ∈ moves? (fun _ => true) none (twoHostRoutine, twoHosts)
      [.post 2, .wake, .answer 1, .answer 0, .deliver, .post 3, .wake], s.1.AtRest := by
    decide +kernel
  obtain ⟨s', hs', hrest'⟩ : ∃ s ∈ moves? (fun _ => true) none (twoHostRoutine, twoHosts)
      [.post 3, .wake, .answer 0, .post 2, .answer 0, .deliver, .wake], s.1.AtRest := by
    decide +kernel
  have h : Settles (fun _ => true) none (twoHostRoutine, twoHosts) [2, 3] s :=
    ⟨_, .refl _, hs, hrest⟩
  have hperm' : (UpdateMove.posted
      [.post 3, .wake, .answer 0, .post 2, .answer 0, .deliver, .wake]).Perm [2, 3] :=
    .swap 2 3 []
  -- at the first look the routine is at 1 and finds 2
  have hraises : (twoHostRoutine.told 2).Raises .wake :=
    (raises_iff rfl).2 ⟨Int.zero_lt_one, show (1 : Int) < 2 by decide⟩
  have hraised : Raised (fun _ => true) none (twoHostRoutine, twoHosts)
      [.post 2, .wake, .answer 1, .answer 0, .deliver, .post 3, .wake] :=
    ⟨[.post 2], .wake, _, _, rfl, (moves?_singleton _).trans (move?_post rfl 2), hraises⟩
  obtain ⟨hsettled, hforeseen⟩ := (settled_of_moves (fun _ => true) hquiet twoHosts).2 [2, 3]
  obtain ⟨hmax, hreset⟩ := hsettled _ s (.refl _) hs hrest
  obtain ⟨hmax', -⟩ := hsettled _ s' hperm' hs' hrest'
  refine ⟨s, s', h, ⟨_, hperm', hs', hrest'⟩, (Option.some.inj hmax).symm,
    (Option.some.inj hmax').symm,
    hforeseen.1 (Or.inl Int.zero_lt_one) s s' h ⟨_, hperm', hs', hrest'⟩, ?_⟩
  exact (hreset.resolve_left fun hkept => hkept.1 hraised).2

/-- A routine without a version finds the instances of an earlier run. If it is told of 1 first,
it takes them for those of version 1 and resets them for 2; told of 2 alone it keeps them. -/
theorem merged_and_unmerged :
    ∃ s ∈ moves? (fun _ => true) none (new Shared.twoHostRule.key, twoHosts)
        [.post 1, .wake, .post 2, .wake, .answer 0, .answer 0, .deliver],
      ∃ s' ∈ moves? (fun _ => true) none (new Shared.twoHostRule.key, twoHosts)
          [.post 1, .post 2, .wake],
        s.1.AtRest ∧ s'.1.AtRest ∧ s.1.version = 2 ∧ s'.1.version = 2 ∧
          (s.2.cache.ofRule Shared.twoHostRule.key).size = 0 ∧
          (s'.2.cache.ofRule Shared.twoHostRule.key).size = 2 ∧
          s.2.batches.length = 1 ∧ s'.2.batches.length = 0 := by
  decide +kernel

end Worker

end Vigil
