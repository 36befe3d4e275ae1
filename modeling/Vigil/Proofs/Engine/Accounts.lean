import Vigil.Proofs.Engine.Work

/-!
# The accounts of an engine

Each evaluation that a tick sends is a case, and an observer of the engine keeps a book of
them (`Audit`). From one state of the engine to the next it sees what becomes of each case
(`Case.next`). The book is in balance with the engine if its waiting cases are the dispatches,
and if the pending and running cases of each routine are what it has in its mailbox and at
work (`Case.Balanced`). It stays so when new cases come in (`Case.Balanced.rolls`) and when
one case goes on and the others are spared (`Case.Balanced.becomes`).
-/

namespace Vigil

/-- Where an evaluation that a tick sent has come to. -/
inductive Progress where
  /-- It waits for its delay. -/
  | waiting
  /-- Its routine was told to stop before the evaluation was offered. -/
  | withdrawn
  /-- Its routine was busy. -/
  | missed
  /-- It is in the mailbox of its routine. -/
  | pending
  /-- Its routine has it at work. -/
  | running
  /-- Its routine was told to stop with the evaluation in its mailbox or at work. -/
  | cancelled
  /-- It was applied and reported. -/
  | completed
deriving DecidableEq

/-- Nothing comes after it. -/
def Progress.isFinal : Progress → Bool
  | .withdrawn | .missed | .cancelled | .completed => true
  | .waiting | .pending | .running => false

namespace System

variable {s t : System} {n : Nat} {w : Worker}

/-- Routine `n` has been told to stop. -/
def isStopped (s : System) (n : Nat) : Bool :=
  s.registry.entries[n]?.any (·.handle.isStopped s.root)

/-- The phase of routine `n`. -/
def phase? (s : System) (n : Nat) : Option Phase := s.registry.entries[n]?.map (·.phase)

/-- Routine `n` has an evaluation at work. -/
def isWorking (s : System) (n : Nat) : Bool := (s.phase? n).any Phase.isWorking

/-- Routine `n` has an evaluation at work that has been counted. -/
def isCounted (s : System) (n : Nat) : Bool := (s.phase? n).any Phase.isCounted

/-- What a tick reports to have sent. -/
def scheduled (s : System) : Action → List Scheduled
  | .tick time listing => (s.tick time listing).1.scheduled
  | _ => []

theorem isStopped_eq (hw : s.registry.entries[n]? = some w) :
    s.isStopped n = w.handle.isStopped s.root := by
  rw [isStopped, hw]
  rfl

theorem phase?_eq (hw : s.registry.entries[n]? = some w) : s.phase? n = some w.phase := by
  rw [phase?, hw]
  rfl

theorem isWorking_eq {p : Phase} (h : s.phase? n = some p) : s.isWorking n = p.isWorking := by
  rw [isWorking, h]
  rfl

theorem isCounted_eq {p : Phase} (h : s.phase? n = some p) : s.isCounted n = p.isCounted := by
  rw [isCounted, h]
  rfl

theorem exists_phase_of_key {k : RuleKey} (h : s.key? n = some k) : ∃ p, s.phase? n = some p := by
  obtain ⟨w, hw, -⟩ := Option.map_eq_some_iff.1 h
  exact ⟨w.phase, phase?_eq hw⟩

end System

/-- An evaluation that a tick sent, and what has become of it. -/
structure Case where
  dispatch : Dispatch
  progress : Progress := .waiting
  /-- Its verdicts, or its last failure, have been counted. -/
  counted : Bool := false

namespace Case

/-- The routine that it was sent to. -/
def worker (c : Case) : Nat := c.dispatch.worker

def evaluation (c : Case) : Evaluation := c.dispatch.evaluation

def key (c : Case) : RuleKey := c.evaluation.rule.key

/-- Where the case has come to once `s` has gone on to `t`. -/
def onward (s t : System) (c : Case) : Progress :=
  match c.progress with
  | .waiting =>
    if t.dispatches.any (·.number == c.dispatch.number) then .waiting
    else if s.isStopped c.worker then .withdrawn
    else if t.pending? c.worker = s.pending? c.worker then .missed
    else .pending
  | .pending => if (t.pending? c.worker).isSome then .pending else .running
  | .running =>
    if t.isWorking c.worker then .running
    else if t.shared.reports = s.shared.reports then .cancelled
    else .completed
  | final => final

/-- The case once `s` has gone on to `t`. -/
def next (s t : System) (c : Case) : Case :=
  { c with
    progress := c.onward s t
    counted := c.counted || (c.progress == .running && t.isCounted c.worker) }

/-- The dispatches of the cases that wait. -/
def waiting (cs : List Case) : List Dispatch :=
  (cs.filter (·.progress == .waiting)).map (·.dispatch)

/-- The evaluations of the cases of routine `n` that have come to `st`. -/
def held (cs : List Case) (st : Progress) (n : Nat) : List Evaluation :=
  (cs.filter fun c => c.progress == st && c.worker == n).map (·.evaluation)

end Case

/-- An engine and the book that is kept of it. -/
structure Audit where
  system : System
  /-- What the ticks report to have sent. -/
  scheduled : List Scheduled := []
  book : List Case := []

namespace Audit

/-- An engine that starts on these data. -/
def on (d : Shared) : Audit := { system := .on d }

/-- What is in the book once `a` led to `t`. -/
def after (x : Audit) (a : System.Action) (t : System) : Audit where
  system := t
  scheduled := x.scheduled ++ x.system.scheduled a
  book := x.book.map (Case.next x.system t) ++
    (t.dispatches.drop x.system.dispatches.length).map ({ dispatch := · })

def step? (x : Audit) (a : System.Action) : Option Audit := (x.system.step? a).map (x.after a)

def run? (x : Audit) (as : List System.Action) : Option Audit := as.foldlM step? x

/-- Where a case has come to, with the stop signal of its routine taken into account. What is
in the mailbox of a routine that was told to stop is never taken. -/
def condition (x : Audit) (c : Case) : Progress :=
  if c.progress = .pending ∧ x.system.isStopped c.worker = true then .cancelled else c.progress

/-- How many evaluations of rule `k` have come to `st`. -/
def count (x : Audit) (k : RuleKey) (st : Progress) : Nat :=
  x.book.countP fun c => c.key == k && x.condition c == st

end Audit

/-! ## The book and the engine -/

namespace Case

variable {s t : System} {c c' : Case} {cs : List Case} {n : Nat} {st : Progress} {e : Evaluation}

/-- What the engine says of a case. -/
structure Fits (s : System) (c : Case) : Prop where
  key : s.key? c.worker = some c.key
  uncounted : c.progress = .waiting ∨ c.progress = .withdrawn ∨ c.progress = .missed ∨
    c.progress = .pending → c.counted = false
  working : c.progress = .running → c.counted = s.isCounted c.worker
  completed : c.progress = .completed → c.counted = true
  stopped : c.progress = .withdrawn ∨ c.progress = .cancelled → s.isStopped c.worker = true

/-- The book agrees with the engine. A routine that crashed keeps its running case. -/
structure Balanced (s : System) (cs : List Case) : Prop where
  /-- The cases are the dispatches that were ever made. -/
  numbers : cs.map (·.dispatch.number) = List.range s.dispatched
  fits : ∀ c ∈ cs, c.Fits s
  waiting : waiting cs = s.dispatches
  /-- What is in the mailboxes. -/
  pending : ∀ n, held cs .pending n = (s.pending? n).toList
  /-- What is at work. -/
  running : ∀ n p, s.phase? n = some p → p ≠ .crashed →
    held cs .running n = p.evaluation?.toList

theorem mem_held (hc : c ∈ cs) : c.evaluation ∈ held cs c.progress c.worker :=
  List.mem_map.2 ⟨c, List.mem_filter.2 ⟨hc, by simp⟩, rfl⟩

theorem held_append (cs cs' : List Case) (st : Progress) (n : Nat) :
    held (cs ++ cs') st n = held cs st n ++ held cs' st n := by
  simp [held]

theorem held_cons (c : Case) (cs : List Case) (st : Progress) (n : Nat) :
    held (c :: cs) st n =
      (if c.progress = st ∧ c.worker = n then [c.evaluation] else []) ++ held cs st n := by
  unfold held
  by_cases h : c.progress = st ∧ c.worker = n
  · simp [h]
  · simp [h]

theorem held_eq_nil_iff : held cs st n = [] ↔ ∀ c ∈ cs, c.progress = st → c.worker ≠ n := by
  simp [held]

theorem waiting_append (cs cs' : List Case) : waiting (cs ++ cs') = waiting cs ++ waiting cs' := by
  simp [waiting]

theorem waiting_map_new (ds : List Dispatch) : waiting (ds.map ({ dispatch := · })) = ds := by
  unfold waiting
  rw [List.filter_eq_self.2, List.map_map]
  · exact List.map_id ds
  · intro c hc
    obtain ⟨d, -, rfl⟩ := List.mem_map.1 hc
    rfl

theorem waiting_cons (c : Case) (cs : List Case) :
    waiting (c :: cs) = (if c.progress = .waiting then [c.dispatch] else []) ++ waiting cs := by
  unfold waiting
  by_cases h : c.progress = .waiting
  · simp [h]
  · simp [h]

/-- Of one case that has come to `st` the others are apart. -/
theorem exists_split_of_held (h : held cs st n = [e]) :
    ∃ before c after, cs = before ++ c :: after ∧ c.progress = st ∧ c.worker = n ∧
      c.evaluation = e ∧ ∀ b ∈ before ++ after, b.progress = st → b.worker ≠ n := by
  have hmem : e ∈ held cs st n := by
    rw [h]
    exact List.mem_cons_self
  obtain ⟨c, hc, rfl⟩ := List.mem_map.1 hmem
  obtain ⟨hcs, hst⟩ := List.mem_filter.1 hc
  simp only [Bool.and_eq_true, beq_iff_eq] at hst
  obtain ⟨before, after, rfl⟩ := List.append_of_mem hcs
  refine ⟨before, c, after, rfl, hst.1, hst.2, rfl, ?_⟩
  rw [held_append, held_cons, if_pos hst, List.singleton_append] at h
  have hlength := congrArg List.length h
  rw [List.length_append, List.length_cons, List.length_singleton] at hlength
  rw [List.forall_mem_append]
  exact ⟨held_eq_nil_iff.1 (List.length_eq_zero_iff.1 (by omega)),
    held_eq_nil_iff.1 (List.length_eq_zero_iff.1 (by omega))⟩

namespace Balanced

theorem waiting_mem (h : Balanced s cs) (hc : c ∈ cs) (hw : c.progress = .waiting) :
    c.dispatch ∈ s.dispatches := by
  rw [← h.waiting]
  exact List.mem_map.2 ⟨c, List.mem_filter.2 ⟨hc, beq_iff_eq.2 hw⟩, rfl⟩

theorem pending_eq (h : Balanced s cs) (hc : c ∈ cs) (hp : c.progress = .pending) :
    s.pending? c.worker = some c.evaluation := by
  have hmem := mem_held hc
  rw [hp, h.pending, Option.mem_toList] at hmem
  exact hmem

theorem working (h : Balanced s cs) (hc : c ∈ cs) (hr : c.progress = .running) :
    s.isWorking c.worker = true := by
  obtain ⟨p, hp⟩ := System.exists_phase_of_key (h.fits c hc).key
  rw [System.isWorking_eq hp]
  by_cases hcrash : p = .crashed
  · rw [hcrash]
    rfl
  · have hmem := mem_held hc
    rw [hr, h.running _ p hp hcrash, Option.mem_toList] at hmem
    rw [Phase.isWorking_eq, show p.evaluation? = some c.evaluation from hmem]
    rfl

/-- The cases have numbers of their own. -/
theorem number_ne {before after : List Case} (h : Balanced s (before ++ c :: after)) :
    ∀ b ∈ before ++ after, b.dispatch.number ≠ c.dispatch.number := by
  intro b hb hsame
  have hnodup : ((before ++ c :: after).map (·.dispatch.number)).Nodup := by
    rw [h.numbers]
    exact List.nodup_range
  rw [List.map_append, List.map_cons, List.nodup_middle, List.nodup_cons, ← List.map_append]
    at hnodup
  exact hnodup.1 (List.mem_map.2 ⟨b, hb, hsame⟩)

/-- A dispatch has its case. -/
theorem exists_split (h : Balanced s cs) {d : Dispatch} (hd : d ∈ s.dispatches) :
    ∃ before c after, cs = before ++ c :: after ∧ c.progress = .waiting ∧ c.dispatch = d := by
  rw [← h.waiting] at hd
  obtain ⟨c, hc, rfl⟩ := List.mem_map.1 hd
  obtain ⟨hcs, hw⟩ := List.mem_filter.1 hc
  obtain ⟨before, after, rfl⟩ := List.append_of_mem hcs
  exact ⟨before, c, after, rfl, beq_iff_eq.1 hw, rfl⟩

end Balanced

end Case

/-! ## From one state to the next -/

/-- In `p'` the routine has at work what it has in `p`, unless it has crashed. -/
structure Phase.Like (p p' : Phase) : Prop where
  counted : p'.isCounted = p.isCounted
  evaluation : p' ≠ .crashed → p ≠ .crashed ∧ p'.evaluation? = p.evaluation?

theorem Phase.Like.refl (p : Phase) : p.Like p := ⟨rfl, fun h => ⟨h, rfl⟩⟩

theorem Phase.Like.working {p p' : Phase} (h : p.Like p') (hp : p.isWorking = true) :
    p'.isWorking = true := by
  by_cases hcrash : p' = .crashed
  · rw [hcrash]
    rfl
  · rw [isWorking_eq, h.counted, (h.evaluation hcrash).2, ← isWorking_eq]
    exact hp

/-- From `s` to `t` the dispatches `ds` are new, and no other evaluation goes on. -/
structure System.Rolls (s : System) (ds : List Dispatch) (t : System) : Prop where
  dispatches : t.dispatches = s.dispatches ++ ds
  dispatched : t.dispatched = s.dispatched + ds.length
  numbers : ds.map (·.number) = List.range' s.dispatched ds.length
  addressed : ∀ d ∈ ds, t.key? d.worker = some d.evaluation.rule.key
  key : ∀ n k, s.key? n = some k → t.key? n = some k
  pending : ∀ n, t.pending? n = s.pending? n
  phase : ∀ n p, s.phase? n = some p → ∃ p', t.phase? n = some p' ∧ p.Like p'
  fresh : ∀ n p', s.phase? n = none → t.phase? n = some p' → p' = .idle
  missed : t.shared.metrics.missed = s.shared.metrics.missed
  evaluations : t.shared.metrics.evaluations = s.shared.metrics.evaluations
  reports : t.shared.reports = s.shared.reports

/-- From `s` to `t` an evaluation of routine `n` goes on, and none of another. -/
structure System.Turned (s : System) (n : Nat) (t : System) : Prop where
  dispatched : t.dispatched = s.dispatched
  key : ∀ m, t.key? m = s.key? m
  pending : ∀ m, m ≠ n → t.pending? m = s.pending? m
  phase : ∀ m, m ≠ n → t.phase? m = s.phase? m

namespace Case

variable {s t : System} {c c' : Case} {cs before after : List Case} {n : Nat} {st : Progress}

/-- From `s` to `t` nothing becomes of the case. -/
structure Spared (s t : System) (c : Case) : Prop where
  waits : c.progress = .waiting → ∃ d ∈ t.dispatches, d.number = c.dispatch.number
  pends : c.progress = .pending → t.pending? c.worker = s.pending? c.worker
  works : c.progress = .running → ∃ p p', s.phase? c.worker = some p ∧
    t.phase? c.worker = some p' ∧ p.Like p'

/-- What becomes of a case from `s` to `t`. -/
inductive Becomes (s t : System) (c : Case) : Case → Prop where
  | withdrawn (hwas : c.progress = .waiting)
      (hdispatches : t.dispatches = s.dispatches.filter (·.number != c.dispatch.number))
      (hphase : t.phase? c.worker = s.phase? c.worker) (hstop : s.isStopped c.worker = true)
      (hpending : t.pending? c.worker = s.pending? c.worker) (hshared : t.shared = s.shared) :
      Becomes s t c { c with progress := .withdrawn }
  | missed (hwas : c.progress = .waiting)
      (hdispatches : t.dispatches = s.dispatches.filter (·.number != c.dispatch.number))
      (hphase : t.phase? c.worker = s.phase? c.worker) (hgoes : s.isStopped c.worker = false)
      (hpending : t.pending? c.worker = s.pending? c.worker)
      (hshared : t.shared =
        { s.shared with metrics := s.shared.metrics.recordMissed c.key }) :
      Becomes s t c { c with progress := .missed }
  | accepted (hwas : c.progress = .waiting)
      (hdispatches : t.dispatches = s.dispatches.filter (·.number != c.dispatch.number))
      (hphase : t.phase? c.worker = s.phase? c.worker) (hgoes : s.isStopped c.worker = false)
      (hempty : s.pending? c.worker = none) (hfull : t.pending? c.worker = some c.evaluation)
      (hshared : t.shared = s.shared) : Becomes s t c { c with progress := .pending }
  | taken {p' : Phase} (hwas : c.progress = .pending) (hdispatches : t.dispatches = s.dispatches)
      (hgoes : s.isStopped c.worker = false) (hidle : s.phase? c.worker = some .idle)
      (hphase : t.phase? c.worker = some p') (hwork : p'.evaluation? = some c.evaluation)
      (huncounted : p'.isCounted = false) (hempty : t.pending? c.worker = none)
      (hshared : t.shared.Quiet s.shared) : Becomes s t c { c with progress := .running }
  | counted {p p' : Phase} (hwas : c.progress = .running)
      (hdispatches : t.dispatches = s.dispatches)
      (hpending : t.pending? c.worker = s.pending? c.worker)
      (hphase : s.phase? c.worker = some p) (hwork : p.evaluation? = some c.evaluation)
      (huncounted : p.isCounted = false) (hphase' : t.phase? c.worker = some p')
      (hwork' : p'.evaluation? = some c.evaluation) (hcounted : p'.isCounted = true)
      (took : Span) (failed : Bool)
      (hshared : t.shared = { s.shared with
        metrics := s.shared.metrics.recordEvaluation c.evaluation.rule.org took failed }) :
      Becomes s t c { c with counted := true }
  | cancelled {p : Phase} (hwas : c.progress = .running)
      (hdispatches : t.dispatches = s.dispatches)
      (hpending : t.pending? c.worker = s.pending? c.worker) (hstop : s.isStopped c.worker = true)
      (hphase : s.phase? c.worker = some p) (hwork : p.evaluation? = some c.evaluation)
      (hidle : t.phase? c.worker = some .idle) (hshared : t.shared.Quiet s.shared) :
      Becomes s t c { c with progress := .cancelled }
  | completed {p : Phase} (hwas : c.progress = .running)
      (hdispatches : t.dispatches = s.dispatches)
      (hpending : t.pending? c.worker = s.pending? c.worker)
      (hphase : s.phase? c.worker = some p) (hwork : p.evaluation? = some c.evaluation)
      (hcounted : p.isCounted = true) (hidle : t.phase? c.worker = some .idle)
      (hmetrics : t.shared.metrics = s.shared.metrics)
      (hreports : t.shared.reports =
        s.shared.reports ++ [(c.key, c.evaluation.scheduledAt)]) :
      Becomes s t c { c with progress := .completed }

theorem Becomes.dispatch (h : c.Becomes s t c') : c'.dispatch = c.dispatch := by
  cases h <;> rfl

theorem next_eq_of_onward (c : Case) (hprogress : c.onward s t = st)
    (hcounted : c.progress = .running → t.isCounted c.worker = true → c.counted = true) :
    c.next s t = { c with progress := st } := by
  have hsame : (c.counted || (c.progress == .running && t.isCounted c.worker)) = c.counted := by
    cases hc : c.counted with
    | true => rfl
    | false =>
        rw [Bool.false_or, Bool.and_eq_false_imp]
        intro hrun
        rw [← Bool.not_eq_true]
        exact fun ht => absurd (hcounted (beq_iff_eq.1 hrun) ht) (by rw [hc]; nofun)
  rw [next, hprogress, hsame]

/-- A case that nothing becomes of stays as it is. -/
theorem Balanced.next_eq (h : Balanced s cs) (hc : c ∈ cs) (hs : c.Spared s t) :
    c.next s t = c := by
  refine next_eq_of_onward c ?_ fun hrun ht => ?_
  · unfold onward
    split
    · rename_i hwas
      obtain ⟨d, hd, hnumber⟩ := hs.waits hwas
      have hstill : t.dispatches.any (·.number == c.dispatch.number) = true :=
        List.any_eq_true.2 ⟨d, hd, beq_iff_eq.2 hnumber⟩
      rw [if_pos hstill, hwas]
    · rename_i hwas
      rw [hs.pends hwas, h.pending_eq hc hwas, hwas]
      rfl
    · rename_i hwas
      obtain ⟨p, p', hp, hp', hlike⟩ := hs.works hwas
      have hworking := h.working hc hwas
      rw [System.isWorking_eq hp] at hworking
      rw [System.isWorking_eq hp', hlike.working hworking, if_pos rfl, hwas]
    · rfl
  · obtain ⟨p, p', hp, hp', hlike⟩ := hs.works hrun
    rw [(h.fits c hc).working hrun, System.isCounted_eq hp, ← hlike.counted,
      ← System.isCounted_eq hp']
    exact ht

theorem Fits.spared (h : c.Fits s) (hs : c.Spared s t)
    (hkey : ∀ n k, s.key? n = some k → t.key? n = some k)
    (hstop : ∀ n, s.isStopped n = true → t.isStopped n = true) : c.Fits t := by
  refine ⟨hkey _ _ h.key, h.uncounted, fun hrun => ?_, h.completed,
    fun hover => hstop _ (h.stopped hover)⟩
  obtain ⟨p, p', hp, hp', hlike⟩ := hs.works hrun
  rw [h.working hrun, System.isCounted_eq hp, System.isCounted_eq hp', hlike.counted]

/-! ### New cases -/

theorem Balanced.spared (h : Balanced s cs) {ds : List Dispatch} (hrolls : s.Rolls ds t)
    (hc : c ∈ cs) : c.Spared s t := by
  refine ⟨fun hwas => ?_, fun _ => hrolls.pending _, fun _ => ?_⟩
  · refine ⟨c.dispatch, ?_, rfl⟩
    rw [hrolls.dispatches]
    exact List.mem_append_left _ (h.waiting_mem hc hwas)
  · obtain ⟨p, hp⟩ := System.exists_phase_of_key (h.fits c hc).key
    obtain ⟨p', hp', hlike⟩ := hrolls.phase _ p hp
    exact ⟨p, p', hp, hp', hlike⟩

/-- **New cases** leave the book in balance. -/
theorem Balanced.rolls (h : Balanced s cs) {ds : List Dispatch} (hrolls : s.Rolls ds t)
    (hstop : ∀ n, s.isStopped n = true → t.isStopped n = true) :
    Balanced t (cs ++ ds.map ({ dispatch := · })) := by
  have hnone : ∀ st : Progress, st ≠ .waiting →
      ∀ n, held (ds.map ({ dispatch := · })) st n = [] := by
    intro st hst n
    refine held_eq_nil_iff.2 fun c hc hwas => ?_
    obtain ⟨d, -, rfl⟩ := List.mem_map.1 hc
    exact absurd hwas.symm hst
  constructor
  case numbers =>
    rw [List.map_append, List.map_map, h.numbers, hrolls.dispatched, List.range_add,
      ← List.range'_eq_map_range]
    exact congrArg _ hrolls.numbers
  case fits =>
    rw [List.forall_mem_append]
    refine ⟨fun c hc => (h.fits c hc).spared (h.spared hrolls hc) hrolls.key hstop, fun c hc => ?_⟩
    obtain ⟨d, hd, rfl⟩ := List.mem_map.1 hc
    exact ⟨hrolls.addressed d hd, fun _ => rfl, nofun, nofun, by simp⟩
  case waiting =>
    rw [waiting_append, h.waiting, hrolls.dispatches, waiting_map_new]
  case pending =>
    intro n
    rw [held_append, hnone .pending nofun, List.append_nil, h.pending, hrolls.pending]
  case running =>
    intro n p' hp' hcrash
    rw [held_append, hnone .running nofun, List.append_nil]
    cases hp : s.phase? n with
    | some p =>
        obtain ⟨p'', hp'', hlike⟩ := hrolls.phase n p hp
        obtain rfl := Option.some.inj (hp'.symm.trans hp'')
        obtain ⟨hcrash', hsame⟩ := hlike.evaluation hcrash
        rw [h.running n p hp hcrash', hsame]
    | none =>
        rw [hrolls.fresh n p' hp hp']
        refine held_eq_nil_iff.2 fun c hc _ hn => ?_
        obtain ⟨p, hp'⟩ := System.exists_phase_of_key (h.fits c hc).key
        rw [hn, hp] at hp'
        cases hp'

/-! ### One case goes on -/

theorem held_middle (before after : List Case) (c : Case) (st : Progress) (n : Nat) :
    held (before ++ c :: after) st n = held before st n ++
      ((if c.progress = st ∧ c.worker = n then [c.evaluation] else []) ++ held after st n) := by
  rw [held_append, held_cons]

/-- A case that is not among those before and after. -/
theorem held_swap (hd : c'.dispatch = c.dispatch)
    (h : (c.progress = st ∧ c.worker = n) ↔ c'.progress = st ∧ c.worker = n) :
    held (before ++ c' :: after) st n = held (before ++ c :: after) st n := by
  have hworker : c'.worker = c.worker := congrArg Dispatch.worker hd
  have hevaluation : c'.evaluation = c.evaluation := congrArg Dispatch.evaluation hd
  rw [held_middle, held_middle, hworker, hevaluation]
  simp only [h]

theorem held_leave {e : Evaluation} (hwas : c.progress = st)
    (hone : held (before ++ c :: after) st c.worker = [e]) (h : c'.progress ≠ st) :
    held (before ++ c' :: after) st c.worker = [] := by
  rw [held_middle, if_pos ⟨hwas, rfl⟩] at hone
  have hlength := congrArg List.length hone
  simp only [List.length_append, List.length_singleton] at hlength
  rw [held_middle, if_neg fun hc => h hc.1, List.nil_append, List.append_eq_nil_iff]
  exact ⟨List.length_eq_zero_iff.1 (by omega), List.length_eq_zero_iff.1 (by omega)⟩

theorem held_enter (hd : c'.dispatch = c.dispatch)
    (hnone : held (before ++ c :: after) st c.worker = []) (h : c'.progress = st) :
    held (before ++ c' :: after) st c.worker = [c.evaluation] := by
  have hworker : c'.worker = c.worker := congrArg Dispatch.worker hd
  have hevaluation : c'.evaluation = c.evaluation := congrArg Dispatch.evaluation hd
  rw [held_middle, List.append_eq_nil_iff, List.append_eq_nil_iff] at hnone
  rw [held_middle, if_pos ⟨h, hworker⟩, hnone.1, hnone.2.2, hevaluation]
  rfl

theorem mem_middle (before after : List Case) (c : Case) : c ∈ before ++ c :: after :=
  List.mem_append_right _ List.mem_cons_self

theorem mem_of_others {b : Case} (hb : b ∈ before ++ after) : b ∈ before ++ c :: after := by
  rcases List.mem_append.1 hb with hb | hb
  · exact List.mem_append_left _ hb
  · exact List.mem_append_right _ (List.mem_cons_of_mem c hb)

theorem Fits.becomes (h : c.Fits s) (hc : c.Becomes s t c')
    (hkey : t.key? c.worker = s.key? c.worker)
    (hstop : s.isStopped c.worker = true → t.isStopped c.worker = true) : c'.Fits t := by
  have hkey' : t.key? c.worker = some c.key := hkey.trans h.key
  cases hc with
  | withdrawn hwas _ _ hstopped =>
      exact ⟨hkey', fun _ => h.uncounted (Or.inl hwas), nofun, nofun, fun _ => hstop hstopped⟩
  | missed hwas =>
      exact ⟨hkey', fun _ => h.uncounted (Or.inl hwas), nofun, nofun, by simp⟩
  | accepted hwas =>
      exact ⟨hkey', fun _ => h.uncounted (Or.inl hwas), nofun, nofun, by simp⟩
  | taken hwas _ _ _ hphase _ huncounted =>
      refine ⟨hkey', by simp, fun _ => ?_, nofun, by simp⟩
      have hcounted := h.uncounted (Or.inr (Or.inr (Or.inr hwas)))
      exact hcounted.trans (huncounted.symm.trans (System.isCounted_eq hphase).symm)
  | counted hwas _ _ _ _ _ hphase' _ hcounted =>
      refine ⟨hkey', by simp [hwas], fun _ => ?_, fun _ => rfl, by simp [hwas]⟩
      exact hcounted.symm.trans (System.isCounted_eq hphase').symm
  | cancelled _ _ _ hstopped =>
      exact ⟨hkey', by simp, nofun, nofun, fun _ => hstop hstopped⟩
  | completed hwas _ _ hphase _ hcounted =>
      refine ⟨hkey', by simp, nofun, fun _ => ?_, by simp⟩
      exact (h.working hwas).trans ((System.isCounted_eq hphase).trans hcounted)

namespace Balanced

/-- What waits no longer is no dispatch any more. -/
theorem waiting_gone (h : Balanced s (before ++ c :: after)) (hwas : c.progress = .waiting)
    (ht : t.dispatches = s.dispatches.filter (·.number != c.dispatch.number))
    (hnow : c'.progress ≠ .waiting) : Case.waiting (before ++ c' :: after) = t.dispatches := by
  have hkept : ∀ cs : List Case, (∀ b ∈ cs, b.dispatch.number ≠ c.dispatch.number) →
      (Case.waiting cs).filter (·.number != c.dispatch.number) = Case.waiting cs := by
    intro cs hcs
    refine List.filter_eq_self.2 fun d hd => ?_
    obtain ⟨b, hb, rfl⟩ := List.mem_map.1 hd
    exact bne_iff_ne.2 (hcs b (List.mem_filter.1 hb).1)
  have hnumbers := h.number_ne
  rw [List.forall_mem_append] at hnumbers
  have hwaiting := h.waiting
  rw [waiting_append, waiting_cons, if_pos hwas, List.singleton_append] at hwaiting
  rw [waiting_append, waiting_cons, if_neg hnow, ht, ← hwaiting, List.filter_append,
    List.filter_cons_of_neg (by simp), hkept before hnumbers.1, hkept after hnumbers.2]
  rfl

theorem waiting_same (h : Balanced s (before ++ c :: after)) (hwas : c.progress ≠ .waiting)
    (ht : t.dispatches = s.dispatches) (hnow : c'.progress ≠ .waiting) :
    Case.waiting (before ++ c' :: after) = t.dispatches := by
  rw [ht, ← h.waiting, waiting_append, waiting_append, waiting_cons, waiting_cons, if_neg hwas,
    if_neg hnow]

theorem waiting_becomes (h : Balanced s (before ++ c :: after)) (hc : c.Becomes s t c') :
    Case.waiting (before ++ c' :: after) = t.dispatches := by
  cases hc with
  | withdrawn hwas ht => exact h.waiting_gone hwas ht nofun
  | missed hwas ht => exact h.waiting_gone hwas ht nofun
  | accepted hwas ht => exact h.waiting_gone hwas ht nofun
  | taken hwas ht => exact h.waiting_same (by simp [hwas]) ht nofun
  | counted hwas ht => exact h.waiting_same (by simp [hwas]) ht (by simp [hwas])
  | cancelled hwas ht => exact h.waiting_same (by simp [hwas]) ht nofun
  | completed hwas ht => exact h.waiting_same (by simp [hwas]) ht nofun

theorem pending_becomes (h : Balanced s (before ++ c :: after)) (hc : c.Becomes s t c') :
    held (before ++ c' :: after) .pending c.worker = (t.pending? c.worker).toList := by
  have hd := hc.dispatch
  have hpending := h.pending c.worker
  cases hc with
  | withdrawn hwas _ _ _ hsame =>
      rw [hsame, ← hpending]
      exact held_swap hd (by simp [hwas])
  | missed hwas _ _ _ hsame =>
      rw [hsame, ← hpending]
      exact held_swap hd (by simp [hwas])
  | accepted _ _ _ _ hempty hfull =>
      rw [hempty] at hpending
      rw [hfull]
      exact held_enter hd hpending rfl
  | taken hwas _ _ _ _ _ _ hempty =>
      rw [h.pending_eq (mem_middle before after c) hwas] at hpending
      rw [hempty]
      exact held_leave hwas hpending nofun
  | counted hwas _ hsame =>
      rw [hsame, ← hpending]
      exact held_swap hd (by simp)
  | cancelled hwas _ hsame =>
      rw [hsame, ← hpending]
      exact held_swap hd (by simp [hwas])
  | completed hwas _ hsame =>
      rw [hsame, ← hpending]
      exact held_swap hd (by simp [hwas])

/-- What a routine has at work is one case. -/
theorem held_running (h : Balanced s cs) {p : Phase} {e : Evaluation} (hp : s.phase? n = some p)
    (he : p.evaluation? = some e) : held cs .running n = [e] := by
  have hlive : p ≠ .crashed := by
    rintro rfl
    cases he
  rw [h.running n p hp hlive, he]
  rfl

theorem running_becomes (h : Balanced s (before ++ c :: after)) (hc : c.Becomes s t c')
    {p' : Phase} (hp' : t.phase? c.worker = some p') (hcrash : p' ≠ .crashed) :
    held (before ++ c' :: after) .running c.worker = p'.evaluation?.toList := by
  have hd := hc.dispatch
  cases hc with
  | withdrawn hwas _ hphase =>
      rw [← h.running _ p' (hphase ▸ hp') hcrash]
      exact held_swap hd (by simp [hwas])
  | missed hwas _ hphase =>
      rw [← h.running _ p' (hphase ▸ hp') hcrash]
      exact held_swap hd (by simp [hwas])
  | accepted hwas _ hphase =>
      rw [← h.running _ p' (hphase ▸ hp') hcrash]
      exact held_swap hd (by simp [hwas])
  | taken _ _ _ hidle hphase he =>
      obtain rfl := Option.some.inj (hp'.symm.trans hphase)
      rw [he]
      exact held_enter hd (h.running _ .idle hidle nofun) rfl
  | counted hwas _ _ hphase he _ hphase' he' =>
      obtain rfl := Option.some.inj (hp'.symm.trans hphase')
      rw [he', Option.toList_some, ← h.held_running hphase he]
      exact held_swap hd Iff.rfl
  | cancelled hwas _ _ _ hphase he hidle =>
      obtain rfl := Option.some.inj (hp'.symm.trans hidle)
      exact held_leave hwas (h.held_running hphase he) nofun
  | completed hwas _ _ hphase he _ hidle =>
      obtain rfl := Option.some.inj (hp'.symm.trans hidle)
      exact held_leave hwas (h.held_running hphase he) nofun

/-- **One case goes on** and leaves the book in balance. -/
theorem becomes (h : Balanced s (before ++ c :: after))
    (hothers : ∀ b ∈ before ++ after, b.Spared s t) (hturned : s.Turned c.worker t)
    (hstop : ∀ n, s.isStopped n = true → t.isStopped n = true) (hc : c.Becomes s t c') :
    Balanced t (before ++ c' :: after) := by
  -- nothing becomes of what other routines hold
  have hother : ∀ n, n ≠ c.worker → ∀ st,
      held (before ++ c' :: after) st n = held (before ++ c :: after) st n := fun n hn st =>
    held_swap hc.dispatch (by simp [Ne.symm hn])
  constructor
  case numbers =>
    rw [hturned.dispatched, ← h.numbers, List.map_append, List.map_append, List.map_cons,
      List.map_cons, hc.dispatch]
  case fits =>
    have hold : ∀ b ∈ before ++ after, b.Fits t := fun b hb =>
      (h.fits b (mem_of_others hb)).spared (hothers b hb)
        (fun n k hk => (hturned.key n).trans hk) hstop
    have hnew := (h.fits c (mem_middle before after c)).becomes hc (hturned.key _) (hstop _)
    rw [List.forall_mem_append] at hold
    rw [List.forall_mem_append, List.forall_mem_cons]
    exact ⟨hold.1, hnew, hold.2⟩
  case waiting => exact h.waiting_becomes hc
  case pending =>
    intro n
    by_cases hn : n = c.worker
    · exact hn ▸ h.pending_becomes hc
    · rw [hother n hn, h.pending, hturned.pending n hn]
  case running =>
    intro n p' hp' hcrash
    by_cases hn : n = c.worker
    · subst hn
      exact h.running_becomes hc hp' hcrash
    · rw [hother n hn]
      exact h.running n p' (hturned.phase n hn ▸ hp') hcrash

end Balanced

end Case

end Vigil
