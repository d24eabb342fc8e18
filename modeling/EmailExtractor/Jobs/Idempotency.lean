import EmailExtractor.Jobs.Create

/-!
# Concurrent requests with an idempotency key

`_create_job` of `app/main.py`, with any number of requests under way at once. Between the
advisory lock of the person and the commit or rollback that gives it up stand the lookup of
the key, the check of the webhook, the limit and the inserts; other requests and the queue
come in at any of these points. The lock is on a hash of the person, so different persons
may share one.

A request that has looked up its key in vain keeps out everybody who could create a job with
that key, so the lookup still holds when it commits.
-/

namespace EmailExtractor

namespace Jobs

open Queue Transition
open Function (update update_self update_apply update_of_ne)

/-! ## Requests -/

/-- A `POST /jobs`. The fingerprint is a hex digest. -/
structure Post where
  who : Principal
  request : Request
  fingerprint_ne : request.fingerprint ≠ []

inductive Stage
  | waiting
  | locked
  | validating
  | counting
  | creating
  | inserted (j : JobId) (answer : Created)
  | answered (answer : Except ApiError Created)
  | failed

def Stage.admitted : Stage → Bool
  | .answered (.error _) => false
  | .failed => false
  | _ => true

def Stage.holds : Stage → Bool
  | .locked => true
  | .validating => true
  | .counting => true
  | .creating => true
  | .inserted _ _ => true
  | _ => false

def Stage.unmatched : Stage → Bool
  | .validating => true
  | .counting => true
  | .creating => true
  | .inserted _ _ => true
  | _ => false

def Stage.withoutJob : Stage → Bool
  | .answered (.error _) => true
  | .answered (.ok answer) => answer.replayed
  | .failed => true
  | _ => false

structure Server (ι : Type*) where
  api : Api
  stage : ι → Option Stage
  locks : ℤ → Option ι

variable {ι : Type*}

section

variable [DecidableEq ι]

def Server.put (x : Server ι) (i : ι) (st : Stage) : Server ι :=
  { x with stage := update x.stage i (some st) }

def Server.finish (x : Server ι) (i : ι) (st : Stage) : Server ι :=
  { x with
    stage := update x.stage i (some st)
    locks := fun k => if x.locks k = some i then none else x.locks k }

/-- A step of a request, or a transaction of the queue. A request can fail at any point. -/
inductive PostMove (ι : Type*)
  | receive (i : ι)
  | lock (i : ι)
  | replay (i : ι)
  | validate (i : ι) (webhook : Except Str Unit)
  | count (i : ι)
  | insert (i : ι) (cutoff : Time) (j : JobId)
  | commit (i : ι) (now clock : Time)
  | fail (i : ι)
  | queue (a : Action)

def PostMove.request : PostMove ι → Option ι
  | .receive i => some i
  | .lock i => some i
  | .replay i => some i
  | .validate i _ => some i
  | .count i => some i
  | .insert i _ _ => some i
  | .commit i _ _ => some i
  | .fail i => some i
  | .queue _ => none

variable (limit : ℤ) (hashtext : Option ℕ → ℤ) (posts : ι → Post)

def postStep (x : Server ι) (m : PostMove ι) : Option (Server ι) :=
  match m with
  | .receive i =>
    match x.stage i, (posts i).request.check with
    | none, .ok _ => some (x.put i .waiting)
    | none, .error e => some (x.put i (.answered (.error e)))
    | _, _ => none
  | .lock i =>
    match x.stage i, x.locks (hashtext (posts i).who.userId) with
    | some .waiting, none =>
      some { x.put i .locked with
        locks := update x.locks (hashtext (posts i).who.userId) (some i) }
    | _, _ => none
  | .replay i =>
    match x.stage i with
    | some .locked =>
      match x.api.replayOf (posts i).who (posts i).request with
      | .error e => some (x.finish i (.answered (.error e)))
      | .ok (some answer) => some (x.finish i (.answered (.ok answer)))
      | .ok none => some (x.put i .validating)
    | _ => none
  | .validate i webhook =>
    match x.stage i, webhook.mapError invalidWebhookUrl with
    | some .validating, .ok _ => some (x.put i .counting)
    | some .validating, .error e => some (x.finish i (.answered (.error e)))
    | _, _ => none
  | .count i =>
    match x.stage i, x.api.checkLimit limit (posts i).who with
    | some .counting, .ok _ => some (x.put i .creating)
    | some .counting, .error e => some (x.finish i (.answered (.error e)))
    | _, _ => none
  | .insert i cutoff j =>
    match x.stage i with
    | some .creating =>
      let a := (posts i).request.newJob (posts i).who
      some (x.put i (.inserted j (created x.api.sys.store cutoff j a)))
    | _ => none
  | .commit i now clock =>
    match x.stage i with
    | some (.inserted j answer) =>
      if .job j ∈ x.api.sys.store.rows then none
      else
        some { x.finish i (.answered (.ok answer)) with
          api := x.api.create now clock j ((posts i).request.newJob (posts i).who) }
    | _ => none
  | .fail i =>
    match x.stage i with
    | some (.answered _) => none
    | some .failed => none
    | some _ => some (x.finish i .failed)
    | none => none
  | .queue a => (opStep x.api.sys a).map fun sys => { x with api := { x.api with sys := sys } }

abbrev PostStep (x : Server ι) (m : PostMove ι) (x' : Server ι) : Prop :=
  postStep limit hashtext posts x m = some x'

inductive PostChange (x : Server ι) : PostMove ι → Server ι → Prop
  | received {i : ι} (hstage : x.stage i = none) (hcheck : (posts i).request.check = .ok ()) :
      PostChange x (.receive i) (x.put i .waiting)
  | rejected {i : ι} {e : ApiError} (hstage : x.stage i = none) :
      PostChange x (.receive i) (x.put i (.answered (.error e)))
  | lock {i : ι} (hstage : x.stage i = some .waiting)
      (hfree : x.locks (hashtext (posts i).who.userId) = none) :
      PostChange x (.lock i) { x.put i .locked with
        locks := update x.locks (hashtext (posts i).who.userId) (some i) }
  | replayed {i : ι} {answer : Created} (hstage : x.stage i = some .locked)
      (hreplay : x.api.replayOf (posts i).who (posts i).request = .ok (some answer)) :
      PostChange x (.replay i) (x.finish i (.answered (.ok answer)))
  | conflict {i : ι} {e : ApiError} (hstage : x.stage i = some .locked)
      (hreplay : x.api.replayOf (posts i).who (posts i).request = .error e) :
      PostChange x (.replay i) (x.finish i (.answered (.error e)))
  | unmatched {i : ι} (hstage : x.stage i = some .locked)
      (hreplay : x.api.replayOf (posts i).who (posts i).request = .ok none) :
      PostChange x (.replay i) (x.put i .validating)
  | forward {m : PostMove ι} {i : ι} {st st' : Stage} (hm : m.request = some i)
      (hother : m ≠ .replay i) (hstage : x.stage i = some st) (hbefore : st.unmatched = true)
      (hafter : st'.unmatched = true)
      (hinserted : ∀ j c, st' = .inserted j c → c.jobId = j ∧ c.replayed = false) :
      PostChange x m (x.put i st')
  | refused {m : PostMove ι} {i : ι} {st : Stage} {e : ApiError} (hm : m.request = some i)
      (hother : m ≠ .replay i) (hstage : x.stage i = some st) (hbefore : st.unmatched = true) :
      PostChange x m (x.finish i (.answered (.error e)))
  | commit {i : ι} {now clock : Time} {j : JobId} {answer : Created}
      (hstage : x.stage i = some (.inserted j answer)) (hfresh : .job j ∉ x.api.sys.store.rows) :
      PostChange x (.commit i now clock)
        { x.finish i (.answered (.ok answer)) with
          api := x.api.create now clock j ((posts i).request.newJob (posts i).who) }
  | failed {i : ι} {st : Stage} (hstage : x.stage i = some st) (hlive : st.admitted = true)
      (hopen : ∀ answer, st ≠ .answered answer) :
      PostChange x (.fail i) (x.finish i .failed)
  | queue {a : Action} {sys : System} (hstep : OpStep x.api.sys a sys) :
      PostChange x (.queue a) { x with api := { x.api with sys := sys } }

variable {limit hashtext posts} {x x' : Server ι} {m : PostMove ι}

theorem postChange (hstep : PostStep limit hashtext posts x m x') :
    PostChange hashtext posts x m x' := by
  unfold PostStep postStep at hstep
  cases m with
  | receive i =>
    dsimp only at hstep
    split at hstep
    · rename_i hstage hcheck
      exact Option.some.inj hstep ▸ .received hstage hcheck
    · rename_i hstage hcheck
      exact Option.some.inj hstep ▸ .rejected hstage
    · simp at hstep
  | lock i =>
    dsimp only at hstep
    split at hstep
    · rename_i hstage hfree
      exact Option.some.inj hstep ▸ .lock hstage hfree
    · simp at hstep
  | replay i =>
    dsimp only at hstep
    split at hstep
    · rename_i hstage
      split at hstep
      · rename_i hreplay
        exact Option.some.inj hstep ▸ .conflict hstage hreplay
      · rename_i hreplay
        exact Option.some.inj hstep ▸ .replayed hstage hreplay
      · rename_i hreplay
        exact Option.some.inj hstep ▸ .unmatched hstage hreplay
    · simp at hstep
  | validate i webhook | count i =>
    dsimp only at hstep
    split at hstep
    · rename_i hstage _
      exact Option.some.inj hstep ▸ .forward rfl (by simp) hstage rfl rfl (by simp)
    · rename_i hstage _
      exact Option.some.inj hstep ▸ .refused rfl (by simp) hstage rfl
    · simp at hstep
  | insert i cutoff j =>
    dsimp only at hstep
    split at hstep
    · rename_i hstage
      refine Option.some.inj hstep ▸ .forward rfl (by simp) hstage rfl rfl ?_
      rintro j' c ⟨rfl, rfl⟩
      exact ⟨rfl, rfl⟩
    · simp at hstep
  | commit i now clock =>
    dsimp only at hstep
    split at hstep
    · rename_i hstage
      split at hstep
      · simp at hstep
      · rename_i hfresh
        exact Option.some.inj hstep ▸ .commit hstage hfresh
    · simp at hstep
  | fail i =>
    dsimp only at hstep
    split at hstep
    · simp at hstep
    · simp at hstep
    · rename_i st hanswered hfailed hstage
      refine Option.some.inj hstep ▸ .failed hstage ?_ hanswered
      cases st <;> simp_all [Stage.admitted]
    · simp at hstep
  | queue a =>
    simp only [Option.map_eq_some_iff] at hstep
    obtain ⟨sys, hsys, rfl⟩ := hstep
    exact .queue hsys

end

/-! ## The job of a key -/

def Api.HasJob (x : Api) (owner : Option ℕ) (key : Str) (j : JobId) : Prop :=
  .job j ∈ x.sys.store.rows ∧ (x.sys.store.job j).ownerId = owner ∧ x.keys j = some key

section

variable {x : Api} {who : Principal} {owner : Option ℕ} {key : Str} {j j' : JobId} {r : Request}

theorem mem_jobsOfKey : j ∈ (jobsWhere x.sys.store fun j job =>
      decide (x.keys j = some key) && decide (job.ownerId = who.userId)).image
        (fun k => k.job?.getD 0) ↔ x.HasJob who.userId key j := by
  rw [Finset.mem_image]
  simp only [mem_jobsWhere, Bool.and_eq_true, decide_eq_true_eq]
  constructor
  · rintro ⟨_, ⟨j, rfl, hmem, hkey, howner⟩, rfl⟩
    exact ⟨hmem, howner, hkey⟩
  · rintro ⟨hmem, howner, hkey⟩
    exact ⟨.job j, ⟨j, rfl, hmem, hkey, howner⟩, rfl⟩

theorem hasJob_of_jobOfKey (h : x.jobOfKey who key = some j) : x.HasJob who.userId key j :=
  mem_jobsOfKey.mp (Finset.mem_of_min h)

theorem not_hasJob_of_jobOfKey (h : x.jobOfKey who key = none) : ¬ x.HasJob who.userId key j := by
  intro hjob
  have hempty := Finset.min_eq_top.mp h
  rw [← mem_jobsOfKey, hempty] at hjob
  exact absurd hjob (Finset.notMem_empty j)

theorem replayOf_cases (who : Principal) (hkey : r.idempotencyKey = some key) (hne : key ≠ [])
    (hprint : ∀ j, x.HasJob who.userId key j → truthy (x.fingerprints j) = true) :
    ((∀ j, ¬ x.HasJob who.userId key j) ∧ x.replayOf who r = .ok none) ∨
      ∃ j, x.HasJob who.userId key j ∧
        ((x.fingerprints j = some r.fingerprint ∧ x.replayOf who r = .ok (some (x.replayed j))) ∨
          (x.fingerprints j ≠ some r.fingerprint ∧
            x.replayOf who r = .error (idempotencyConflict j))) := by
  have hreplay : x.replayOf who r = x.replay who key r.fingerprint := by
    simp [Api.replayOf, hkey, hne]
  rw [hreplay, Api.replay]
  cases hjob : x.jobOfKey who key with
  | none => exact .inl ⟨fun _ => not_hasJob_of_jobOfKey hjob, rfl⟩
  | some j =>
    have hhas := hasJob_of_jobOfKey hjob
    refine .inr ⟨j, hhas, ?_⟩
    by_cases hsame : x.fingerprints j = some r.fingerprint
    · exact .inl ⟨hsame, by simp [hsame]⟩
    · exact .inr ⟨hsame, by simp [hsame, hprint j hhas]⟩

theorem hasJob_create {now clock : Time} {a : NewJob} (hfresh : .job j ∉ x.sys.store.rows) :
    (x.create now clock j a).HasJob owner key j' ↔
      (j' = j ∧ a.ownerId = owner ∧ a.idempotencyKey = some key) ∨ x.HasJob owner key j' := by
  unfold Api.HasJob Api.create
  simp only [job_mem_createJob, job_createJob]
  by_cases hj : j' = j
  · subst hj
    have howner : (a.job now clock).ownerId = a.ownerId := by
      unfold NewJob.job
      split <;> rfl
    simp [hfresh, howner]
  · simp [hj]

theorem fingerprints_create {now clock : Time} {a : NewJob} :
    (x.create now clock j a).fingerprints j' =
      if j' = j then a.idempotencyFingerprint else x.fingerprints j' := by
  unfold Api.create
  simp only [update_apply]

theorem hasJob_queue {a : Action} {sys : System} (hstep : OpStep x.sys a sys) :
    Api.HasJob { x with sys := sys } owner key j ↔ x.HasJob owner key j := by
  obtain ⟨henabled, rfl⟩ := opStep_cases hstep
  have howner : ((a.op.apply a.now x.sys.store).job j).ownerId =
      (x.sys.store.job j).ownerId := by
    have hchange := jobChange x.sys.store a henabled.2.2 j
    generalize (a.op.apply a.now x.sys.store).job j = job at hchange ⊢
    cases hchange <;> rfl
  have hmem : .job j ∈ (a.op.apply a.now x.sys.store).rows ↔ .job j ∈ x.sys.store.rows := by
    rw [mem_rows_apply henabled.2.2]
    simp
  unfold Api.HasJob
  rw [howner, hmem]

end

/-! ## Whole runs -/

structure Fresh (x : Server ι) : Prop where
  keys : ∀ j, .job j ∈ x.api.sys.store.rows → x.api.keys j = none
  stage : ∀ i, x.stage i = none
  locks : ∀ k, x.locks k = none

/-- What is known of a request at a stage, from the database and the locks. -/
structure Sound (hashtext : Option ℕ → ℤ) (p : Post) (api : Api) (locks : ℤ → Option ι) (i : ι)
    (st : Stage) : Prop where
  checked : st.admitted = true → p.request.check = .ok ()
  lock : st.holds = true → locks (hashtext p.who.userId) = some i
  unmatched : st.unmatched = true → ∀ key ∈ p.request.idempotencyKey, ∀ j,
    ¬ api.HasJob p.who.userId key j
  inserted : ∀ j answer, st = .inserted j answer → answer.jobId = j ∧ answer.replayed = false
  answered : ∀ answer, st = .answered (.ok answer) → ∀ key ∈ p.request.idempotencyKey,
    api.HasJob p.who.userId key answer.jobId ∧
      api.fingerprints answer.jobId = some p.request.fingerprint

/-- There is one job for a key at most, and every request is where it says it is. -/
structure Idempotent (hashtext : Option ℕ → ℤ) (posts : ι → Post) (x : Server ι) : Prop where
  unique : ∀ owner key j j', x.api.HasJob owner key j → x.api.HasJob owner key j' → j = j'
  prints : ∀ owner key j, x.api.HasJob owner key j → truthy (x.api.fingerprints j) = true
  sound : ∀ i st, x.stage i = some st → Sound hashtext (posts i) x.api x.locks i st

section

variable {hashtext : Option ℕ → ℤ} {posts : ι → Post} {x : Server ι} {i : ι} {st : Stage}

theorem key_ne_of_check {r : Request} {key : Str} (hcheck : r.check = .ok ())
    (hkey : key ∈ r.idempotencyKey) : key ≠ [] := by
  rintro rfl
  unfold Request.check at hcheck
  split at hcheck
  · simp at hcheck
  · split at hcheck
    · simp at hcheck
    · simp [Option.mem_def.mp hkey] at hcheck

theorem Stage.of_unmatched (h : st.unmatched = true) : st.holds = true ∧ st.admitted = true := by
  cases st with
  | validating | counting | creating | inserted => exact ⟨rfl, rfl⟩
  | _ => cases h

theorem fingerprint_newJob {r : Request} {key : Str} (who : Principal) (hcheck : r.check = .ok ())
    (hkey : key ∈ r.idempotencyKey) :
    (r.newJob who).idempotencyFingerprint = some r.fingerprint := by
  have hne := key_ne_of_check hcheck hkey
  simp [Request.newJob, Option.mem_def.mp hkey, truthy, hne]

variable {api : Api}

variable {p : Post}

theorem Sound.of_error {locks : ℤ → Option ι} (e : ApiError) :
    Sound hashtext p api locks i (.answered (.error e)) := by
  constructor <;> simp [Stage.admitted, Stage.holds, Stage.unmatched]

theorem Sound.of_failed {locks : ℤ → Option ι} : Sound hashtext p api locks i .failed := by
  constructor <;> simp [Stage.admitted, Stage.holds, Stage.unmatched]

theorem Sound.locks {locks locks' : ℤ → Option ι} (h : Sound hashtext p api locks i st)
    (hlocks : locks (hashtext p.who.userId) = some i → locks' (hashtext p.who.userId) = some i) :
    Sound hashtext p api locks' i st :=
  { h with lock := fun hholds => hlocks (h.lock hholds) }

theorem Fresh.idempotent (h : Fresh x) : Idempotent hashtext posts x := by
  have hnone : ∀ owner key j, ¬ x.api.HasJob owner key j := by
    rintro owner key j ⟨hmem, -, hkey⟩
    simp [h.keys j hmem] at hkey
  constructor
  case unique => exact fun owner key j _ hjob => absurd hjob (hnone owner key j)
  case prints => exact fun owner key j hjob => absurd hjob (hnone owner key j)
  case sound => simp [h.stage]

theorem Idempotent.queue (hx : Idempotent hashtext posts x) {a : Action} {sys : System}
    (hstep : OpStep x.api.sys a sys) :
    Idempotent hashtext posts { x with api := { x.api with sys := sys } } := by
  constructor
  case unique =>
    intro owner key j j' h h'
    exact hx.unique owner key j j' ((hasJob_queue hstep).mp h) ((hasJob_queue hstep).mp h')
  case prints =>
    intro owner key j h
    exact hx.prints owner key j ((hasJob_queue hstep).mp h)
  case sound =>
    intro i st hstage
    obtain ⟨hchecked, hlock, hunmatched, hinserted, hanswered⟩ := hx.sound i st hstage
    refine ⟨hchecked, hlock, ?_, hinserted, ?_⟩
    · intro hst key hkey j hjob
      exact hunmatched hst key hkey j ((hasJob_queue hstep).mp hjob)
    · intro answer hanswer key hkey
      obtain ⟨hjob, hprint⟩ := hanswered answer hanswer key hkey
      exact ⟨(hasJob_queue hstep).mpr hjob, hprint⟩

theorem Idempotent.lookup (hx : Idempotent hashtext posts x) (hstage : x.stage i = some .locked)
    {key : Str} (hkey : key ∈ (posts i).request.idempotencyKey) :
    let replay := x.api.replayOf (posts i).who (posts i).request
    ((∀ j, ¬ x.api.HasJob (posts i).who.userId key j) ∧ replay = .ok none) ∨
      ∃ j, x.api.HasJob (posts i).who.userId key j ∧
        ((x.api.fingerprints j = some (posts i).request.fingerprint ∧
            replay = .ok (some (x.api.replayed j))) ∨
          (x.api.fingerprints j ≠ some (posts i).request.fingerprint ∧
            replay = .error (idempotencyConflict j))) := by
  have hcheck := (hx.sound i _ hstage).checked rfl
  exact replayOf_cases (posts i).who hkey (key_ne_of_check hcheck hkey) fun j => hx.prints _ key j

theorem Sound.commit {locks locks' : ℤ → Option ι} {now clock : Time} {j : JobId}
    {answer : Created} (h : Sound hashtext p api locks i (.inserted j answer))
    (hfresh : .job j ∉ api.sys.store.rows) :
    Sound hashtext p (api.create now clock j (p.request.newJob p.who)) locks' i
      (.answered (.ok answer)) := by
  have hcheck := h.checked rfl
  refine ⟨fun _ => hcheck, by simp [Stage.holds], by simp [Stage.unmatched], by simp, ?_⟩
  rintro _ ⟨rfl⟩ key hkey
  rw [(h.inserted j answer rfl).1]
  refine ⟨(hasJob_create hfresh).mpr (.inl ⟨rfl, rfl, hkey⟩), ?_⟩
  rw [fingerprints_create, if_pos rfl, fingerprint_newJob p.who hcheck hkey]

/-- A new job leaves a request as it is, unless the request has looked for a job of the same
person in vain. -/
theorem Sound.create {locks : ℤ → Option ι} {now clock : Time} {j : JobId} {a : NewJob}
    (h : Sound hashtext p api locks i st) (hfresh : .job j ∉ api.sys.store.rows)
    (howner : st.unmatched = true → a.ownerId ≠ p.who.userId) :
    Sound hashtext p (api.create now clock j a) locks i st := by
  refine ⟨h.checked, h.lock, ?_, h.inserted, ?_⟩
  · intro hunmatched key hkey j' hjob
    rw [hasJob_create hfresh] at hjob
    rcases hjob with ⟨-, hsame, -⟩ | hjob
    · exact howner hunmatched hsame
    · exact h.unmatched hunmatched key hkey j' hjob
  · intro answer hanswer key hkey
    obtain ⟨hjob, hprint⟩ := h.answered answer hanswer key hkey
    refine ⟨(hasJob_create hfresh).mpr (.inr hjob), ?_⟩
    have hne : answer.jobId ≠ j := fun heq => hfresh (heq ▸ hjob.1)
    rw [fingerprints_create, if_neg hne, hprint]

end

section

variable [DecidableEq ι] {limit : ℤ} {hashtext : Option ℕ → ℤ} {posts : ι → Post}
  {x x' : Server ι} {m : PostMove ι} {i : ι} {st : Stage}

theorem Idempotent.move (hx : Idempotent hashtext posts x) {locks : ℤ → Option ι}
    (hothers : ∀ k i', i' ≠ i → x.locks k = some i' → locks k = some i')
    (hsound : Sound hashtext (posts i) x.api locks i st) :
    Idempotent hashtext posts ⟨x.api, update x.stage i (some st), locks⟩ := by
  refine ⟨hx.unique, hx.prints, fun i' st' hstage => ?_⟩
  dsimp only at hstage
  by_cases hi : i' = i
  · subst hi
    rw [update_self, Option.some.injEq] at hstage
    exact hstage ▸ hsound
  · rw [update_of_ne hi] at hstage
    exact (hx.sound i' st' hstage).locks (hothers _ i' hi)

theorem Idempotent.put (hx : Idempotent hashtext posts x)
    (hsound : Sound hashtext (posts i) x.api x.locks i st) :
    Idempotent hashtext posts (x.put i st) :=
  hx.move (fun _ _ _ h => h) hsound

theorem finish_locks (st : Stage) {k : ℤ} {i' : ι} (hi : i' ≠ i) (h : x.locks k = some i') :
    (x.finish i st).locks k = some i' := by
  simp [Server.finish, h, hi]

section

variable (hx : Idempotent hashtext posts x)

include hx

theorem Idempotent.finish (hsound : Sound hashtext (posts i) x.api (x.finish i st).locks i st) :
    Idempotent hashtext posts (x.finish i st) :=
  hx.move (fun _ _ hi h => finish_locks st hi h) hsound

/-- A commit makes the only job for its key: whoever else has looked for one holds another
lock, and is of another person. -/
theorem Idempotent.commit {now clock : Time} {j : JobId} {answer : Created}
    (hstage : x.stage i = some (.inserted j answer)) (hfresh : .job j ∉ x.api.sys.store.rows) :
    Idempotent hashtext posts
      { x.finish i (.answered (.ok answer)) with
        api := x.api.create now clock j ((posts i).request.newJob (posts i).who) } := by
  have hown := hx.sound i _ hstage
  have hnone := hown.unmatched rfl
  have hcheck := hown.checked rfl
  constructor
  case unique =>
    intro owner key j₁ j₂ h₁ h₂
    rw [hasJob_create hfresh] at h₁ h₂
    rcases h₁ with ⟨rfl, rfl, hkey₁⟩ | h₁
    · rcases h₂ with ⟨rfl, -⟩ | h₂
      · rfl
      · exact absurd h₂ (hnone key hkey₁ j₂)
    · rcases h₂ with ⟨rfl, rfl, hkey₂⟩ | h₂
      · exact absurd h₁ (hnone key hkey₂ j₁)
      · exact hx.unique owner key j₁ j₂ h₁ h₂
  case prints =>
    intro owner key j' h
    rw [hasJob_create hfresh] at h
    dsimp only
    rw [fingerprints_create]
    rcases h with ⟨rfl, -, hkey⟩ | h
    · rw [if_pos rfl, fingerprint_newJob (posts i).who hcheck hkey]
      simp [truthy, (posts i).fingerprint_ne]
    · have hne : j' ≠ j := fun heq => hfresh (heq ▸ h.1)
      rw [if_neg hne]
      exact hx.prints owner key j' h
  case sound =>
    intro i' st' hstage'
    dsimp only [Server.finish] at hstage'
    by_cases hi : i' = i
    · subst hi
      rw [update_self, Option.some.injEq] at hstage'
      exact hstage' ▸ hown.commit hfresh
    · rw [update_of_ne hi] at hstage'
      have hother := hx.sound i' st' hstage'
      refine (hother.create hfresh fun hunmatched howner => hi ?_).locks
        (finish_locks (.answered (.ok answer)) hi)
      -- the two have the same person, hence the same lock
      have hlock' := hother.lock (Stage.of_unmatched hunmatched).1
      have hlock := hown.lock rfl
      rw [show (posts i).who.userId = (posts i').who.userId from howner, hlock',
        Option.some.injEq] at hlock
      exact hlock

theorem Idempotent.step (hstep : PostStep limit hashtext posts x m x') :
    Idempotent hashtext posts x' := by
  cases postChange hstep with
  | received hstage hcheck =>
    refine hx.put ⟨fun _ => hcheck, ?_, ?_, by simp, by simp⟩ <;>
      simp [Stage.holds, Stage.unmatched]
  | rejected _ => exact hx.put (.of_error _)
  | @lock i hstage hfree =>
    refine hx.move (fun k i' hi hk => ?_) ?_
    · have hne : k ≠ hashtext (posts i).who.userId := by
        rintro rfl
        exact absurd (hfree.symm.trans hk) (by simp)
      rw [update_of_ne hne, hk]
    · exact ⟨fun _ => (hx.sound i _ hstage).checked rfl, fun _ => update_self ..,
        by simp [Stage.unmatched], by simp, by simp⟩
  | @replayed i answer hstage hreplay =>
    have hown := hx.sound i _ hstage
    refine hx.finish ⟨fun _ => hown.checked rfl, by simp [Stage.holds], by simp [Stage.unmatched],
      by simp, ?_⟩
    rintro _ ⟨rfl⟩ key hkey
    rcases hx.lookup hstage hkey with
      ⟨-, hnone⟩ | ⟨j, hjob, ⟨hprint, hsome⟩ | ⟨-, herror⟩⟩
    · simp [hnone] at hreplay
    · rw [hsome, Except.ok.injEq, Option.some.injEq] at hreplay
      subst hreplay
      exact ⟨hjob, hprint⟩
    · simp [herror] at hreplay
  | conflict _ _ => exact hx.finish (.of_error _)
  | @unmatched i hstage hreplay =>
    have hown := hx.sound i _ hstage
    refine hx.put ⟨fun _ => hown.checked rfl, fun _ => hown.lock rfl, ?_, by simp, by simp⟩
    intro _ key hkey
    rcases hx.lookup hstage hkey with
      ⟨hnone, -⟩ | ⟨j, hjob, ⟨-, hsome⟩ | ⟨-, herror⟩⟩
    · exact hnone
    · simp [hsome] at hreplay
    · simp [herror] at hreplay
  | @forward m i st st' _ _ hstage hbefore hafter hinserted =>
    have hown := hx.sound i st hstage
    refine hx.put ⟨fun _ => hown.checked (Stage.of_unmatched hbefore).2,
      fun _ => hown.lock (Stage.of_unmatched hbefore).1, fun _ => hown.unmatched hbefore,
      hinserted, ?_⟩
    rintro answer rfl
    simp [Stage.unmatched] at hafter
  | refused _ _ _ _ => exact hx.finish (.of_error _)
  | commit hstage hfresh => exact hx.commit hstage hfresh
  | failed _ _ _ => exact hx.finish .of_failed
  | queue hqueue => exact hx.queue hqueue

theorem conflict_of_replay (hstep : PostStep limit hashtext posts x (.replay i) x') {key : Str}
    {j : JobId} (hkey : key ∈ (posts i).request.idempotencyKey)
    (hjob : x.api.HasJob (posts i).who.userId key j)
    (hdiffers : x.api.fingerprints j ≠ some (posts i).request.fingerprint) :
    x'.stage i = some (.answered (.error (idempotencyConflict j))) := by
  have hlookup : x.stage i = some .locked →
      x.api.replayOf (posts i).who (posts i).request = .error (idempotencyConflict j) := by
    intro hstage
    rcases hx.lookup hstage hkey with ⟨hnone, -⟩ | ⟨j', hjob', hcases⟩
    · exact absurd hjob (hnone j)
    · obtain rfl := hx.unique _ key j j' hjob hjob'
      exact (hcases.resolve_left fun hsame => hdiffers hsame.1).2
  cases postChange hstep with
  | replayed hstage hreplay => simp [hlookup hstage] at hreplay
  | conflict hstage hreplay =>
    rw [hlookup hstage, Except.error.injEq] at hreplay
    simp [Server.finish, hreplay]
  | unmatched hstage hreplay => simp [hlookup hstage] at hreplay
  | forward hm hother | refused hm hother =>
    obtain rfl := Option.some.inj hm
    exact absurd rfl hother

theorem api_of_step (hstep : PostStep limit hashtext posts x m x') (hm : m.request = some i) :
    x'.api = x.api ∨ ∃ answer, x'.stage i = some (.answered (.ok answer)) ∧
      answer.replayed = false := by
  cases postChange hstep with
  | @commit i' now clock j answer hstage hfresh =>
    obtain rfl := Option.some.inj hm
    refine .inr ⟨answer, ?_, ((hx.sound i' _ hstage).inserted j answer rfl).2⟩
    simp [Server.finish]
  | queue _ => simp [PostMove.request] at hm
  | _ => exact .inl rfl

end

theorem answered_of_step {answer : Except ApiError Created}
    (hstep : PostStep limit hashtext posts x m x') (hstage : x.stage i = some (.answered answer)) :
    x'.stage i = some (.answered answer) := by
  -- a request that makes a step has not been answered
  have hupdate : ∀ i' st, (∀ answer, x.stage i' ≠ some (.answered answer)) →
      update x.stage i' (some st) i = some (.answered answer) := by
    intro i' st hopen
    rw [update_of_ne, hstage]
    rintro rfl
    exact hopen answer hstage
  cases postChange hstep with
  | received hstage' _ | rejected hstage' | lock hstage' _ | replayed hstage' _
  | conflict hstage' _ | unmatched hstage' _ => exact hupdate _ _ (by simp [hstage'])
  | forward _ _ hstage' hbefore _ _ | refused _ _ hstage' hbefore =>
    refine hupdate _ _ fun answer h => ?_
    rw [hstage', Option.some.injEq] at h
    simp [h, Stage.unmatched] at hbefore
  | commit hstage' _ => exact hupdate _ _ (by simp [hstage'])
  | failed hstage' _ hopen =>
    refine hupdate _ _ fun answer h => hopen answer ?_
    exact Option.some.inj (hstage'.symm.trans h)
  | queue _ => exact hstage

section

variable {h : List (Server ι × PostMove ι)} (hrun : Run Fresh (PostStep limit hashtext posts) h x)

include hrun

theorem PostRun.idempotent : Idempotent hashtext posts x :=
  hrun.always (fun _ hfresh => hfresh.idempotent) fun _ _ _ hx hstep => hx.step hstep

theorem PostRun.unchanged
    (hnew : ∀ answer, x.stage i = some (.answered (.ok answer)) → answer.replayed = true) :
    Along (fun _ y m y' => m.request = some i → y'.api = y.api) h x := by
  induction hrun with
  | start _ => trivial
  | next hrun hstep ih =>
    refine ⟨fun hm => ?_, ih fun answer hstage => hnew answer (answered_of_step hstep hstage)⟩
    rcases api_of_step (PostRun.idempotent hrun) hstep hm with hsame | ⟨answer, hstage, hcreated⟩
    · exact hsame
    · simp [hnew answer hstage] at hcreated

end

end

/-- For every person and key there is one job at most. A request with the key that succeeds
answers with that job and has its fingerprint; one with another fingerprint that looks up the
key is refused with a conflict. A request that ends without a job of its own has not changed
the database. -/
theorem creation_idempotent [DecidableEq ι] (limit : ℤ) (hashtext : Option ℕ → ℤ)
    (posts : ι → Post) {h : List (Server ι × PostMove ι)} {x : Server ι}
    (hrun : Run Fresh (PostStep limit hashtext posts) h x) :
    (∀ owner key j j', x.api.HasJob owner key j → x.api.HasJob owner key j' → j = j') ∧
      (∀ i answer, x.stage i = some (.answered (.ok answer)) →
        ∀ key ∈ (posts i).request.idempotencyKey,
          x.api.HasJob (posts i).who.userId key answer.jobId ∧
            x.api.fingerprints answer.jobId = some (posts i).request.fingerprint) ∧
      Along (fun _ y m y' => ∀ i, m = .replay i → ∀ key ∈ (posts i).request.idempotencyKey, ∀ j,
        y.api.HasJob (posts i).who.userId key j →
        y.api.fingerprints j ≠ some (posts i).request.fingerprint →
        y'.stage i = some (.answered (.error (idempotencyConflict j)))) h x ∧
      ∀ i st, x.stage i = some st → st.withoutJob = true →
        Along (fun _ y m y' => m.request = some i → y'.api = y.api) h x := by
  have hx := PostRun.idempotent hrun
  refine ⟨hx.unique, ?_, ?_, ?_⟩
  · intro i answer hstage
    exact (hx.sound i _ hstage).answered answer rfl
  · refine hrun.along_history (I := fun _ y => Idempotent hashtext posts y)
      (fun _ hfresh => hfresh.idempotent) (fun _ _ _ _ hy _ hstep => hy.step hstep) ?_
      (guarded_true h)
    rintro _ y _ y' hy - hstep i rfl key hkey j hjob hdiffers
    exact conflict_of_replay hy hstep hkey hjob hdiffers
  · intro i st hstage hwithout
    refine PostRun.unchanged hrun fun answer hanswer => ?_
    rw [hstage, Option.some.injEq] at hanswer
    simpa [hanswer, Stage.withoutJob] using hwithout

namespace SameKey

def who : Principal := ⟨some 7, false⟩

def item (d : Str) : PreparedItem := ⟨0, d, some d, none, none, "website".toList, []⟩

def post (items : List PreparedItem) (digit : Char) : Post where
  who := who
  request :=
    { items := items
      webhookUrl := none
      fresh := false
      idempotencyKey := some "k".toList
      fingerprint := [digit] }
  fingerprint_ne := List.cons_ne_nil digit []

/-- Request 0 and its repetition 1, and two with other rows, of which the last has none. -/
def posts : ℕ → Post
  | 0 => post [item "a".toList] 'f'
  | 1 => post [item "a".toList] 'f'
  | 2 => post [item "b".toList] '9'
  | _ => post [] '7'

def start : Server ℕ where
  api :=
    { sys := ⟨.blank ∅ fun _ => { createdAt := 0 }, []⟩
      keys := fun _ => none
      fingerprints := fun _ => none
      items := fun _ => []
      posting := fun _ => none }
  stage _ := none
  locks _ := none

theorem start_fresh : Fresh start where
  keys _ _ := rfl
  stage _ := rfl
  locks _ := rfl

/-- The first three requests come together; each waits for the lock of the one before. -/
def schedule : List (PostMove ℕ) :=
  [.receive 0, .receive 1, .receive 2, .lock 0, .replay 0, .validate 0 (.ok ()), .count 0,
    .insert 0 0 5, .commit 0 1 1, .lock 1, .replay 1, .lock 2, .replay 2, .receive 3]

def refusedWith (e : ApiError) : Option Stage → Bool
  | some (.answered (.error e')) => decide (e' = e)
  | _ => false

def repeated : Option Stage → Bool
  | some (.answered (.ok answer)) => answer.replayed
  | _ => false

theorem refusedWith_iff {e : ApiError} {st : Option Stage} :
    refusedWith e st = true ↔ st = some (.answered (.error e)) := by
  unfold refusedWith
  split <;> simp_all

theorem repeated_iff {st : Option Stage} : repeated st = true ↔
    ∃ answer, st = some (.answered (.ok answer)) ∧ answer.replayed = true := by
  unfold repeated
  split <;> simp_all

end SameKey

/-- The repetition of a request that creates a job is answered with that job. -/
theorem repetition_gets_same_job : ∃ h x answer,
    Run Fresh (PostStep 3 (fun _ => 0) SameKey.posts) h x ∧
      x.stage 1 = some (.answered (.ok answer)) ∧ answer.replayed = true ∧
      x.api.HasJob (some 7) "k".toList answer.jobId ∧
        x.api.fingerprints answer.jobId = some ['f'] := by
  obtain ⟨h, x, hrun, hrepeated⟩ := Run.exists_of_exec Fresh (postStep 3 (fun _ => 0) SameKey.posts)
    SameKey.start SameKey.start_fresh SameKey.schedule
    (fun p => SameKey.repeated (p.2.stage 1) = true) (by decide +kernel)
  obtain ⟨answer, hstage, hreplayed⟩ := SameKey.repeated_iff.mp hrepeated
  exact ⟨h, x, answer, hrun, hstage, hreplayed,
    (creation_idempotent 3 (fun _ => 0) SameKey.posts hrun).2.1 1 answer hstage _ rfl⟩

/-- A request with the key of a job and another fingerprint is refused for its rows, before
the key is looked up. -/
theorem conflicting_request_without_rows : ∃ h x,
    Run Fresh (PostStep 3 (fun _ => 0) SameKey.posts) h x ∧
      x.api.HasJob (some 7) "k".toList 5 ∧
      (SameKey.posts 3).who.userId = some 7 ∧
      (SameKey.posts 3).request.idempotencyKey = some "k".toList ∧
      x.api.fingerprints 5 ≠ some (SameKey.posts 3).request.fingerprint ∧
      x.stage 3 = some (.answered (.error noRows)) := by
  obtain ⟨h, x, hrun, hjob, hprint, hrefused⟩ := Run.exists_of_exec Fresh
    (postStep 3 (fun _ => 0) SameKey.posts) SameKey.start SameKey.start_fresh SameKey.schedule
    (fun p => (.job 5 ∈ p.2.api.sys.store.rows ∧ (p.2.api.sys.store.job 5).ownerId = some 7 ∧
        p.2.api.keys 5 = some "k".toList) ∧
      p.2.api.fingerprints 5 ≠ some (SameKey.posts 3).request.fingerprint ∧
      SameKey.refusedWith noRows (p.2.stage 3) = true)
    (by decide +kernel)
  exact ⟨h, x, hrun, hjob, rfl, rfl, hprint, SameKey.refusedWith_iff.mp hrefused⟩

end Jobs

end EmailExtractor
