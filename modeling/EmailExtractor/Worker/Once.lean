import EmailExtractor.Worker.GivesBack

/-!
# A shared domain is fetched once

A handler looks at the shared cache, takes the lock of the domain in a transaction of
its own, and looks again. `finish` writes the cache and drops the lock in one
transaction. So whoever gets the lock after a result has been published looks at the
cache with that result or a later one in it, and starts `process_domain` only for a job
or a retry that is newer.

The handlers between `lock_domain` and `finish` are fetch sections of the lock protocol
of `Queue.Locks`, whose invariant is used here as it stands.
-/

namespace EmailExtractor

namespace Worker

open Queue

/-- The points at which a handler relies on its lock. -/
def Point.inSection : Point → Bool
  | .locked => true
  | .cleared => true
  | .fetching => true
  | .finishing _ _ fromCache writeCache => !fromCache && writeCache
  | _ => false

/-- The handlers as claims in a fetch section. -/
def sections (w : World) : Locks :=
  ⟨w.sys, w.sys.claims.filter fun c => (w.points c).inSection⟩

/-- The transaction records a result and writes it to the shared cache, for this claim
and with this start time. -/
def publishes (s : Store) (a : Action) : Option (Claim × Time) :=
  match a.op with
  | .finish c result fromCache writeCache =>
    if !fromCache && writeCache && (finish s a.now c result fromCache writeCache).2.1 then
      some (c, a.now)
    else none
  | _ => none

/-- A result for the domain has been published in a transaction that began at `t`. -/
def Published (cfg : Config) (h : List (World × Tick)) (d : Str) (t : Time) : Prop :=
  ∃ p ∈ queueHistory cfg h, ∃ c, publishes p.1.store p.2 = some (c, t) ∧ c.domain = d

/-- The workers have plain ids and release what they hold after their handlers have ended,
every lock is renewed before it expires, and every stored result can be read. -/
def Careful (cfg : Config) (w : World) (m : Tick) : Prop :=
  OwnCalls w m ∧ (∀ a ∈ queueAction cfg w m, Orderly (sections w) (.op a)) ∧
    ∀ c ∈ w.sys.claims, ∀ r ∈ (w.sys.store.domain c.domain).result, (cfg.validate r).isSome = true

instance (cfg : Config) (w : World) (m : Tick) : Decidable (Careful cfg w m) :=
  inferInstanceAs (Decidable (_ ∧ _ ∧ _))

/-- Any store; the handlers of the claims handed out before, by workers with plain ids, are
gone. -/
structure Opened (w : World) : Prop where
  tokens : (w.sys.claims.map Claim.token).Nodup
  made : ∀ c ∈ w.sys.claims, ∃ worker, PlainId worker ∧ c.MadeBy worker
  gone : ∀ c ∈ w.sys.claims, w.points c = .dead
  points : ∀ c, c ∉ w.sys.claims → w.points c = .ready

section

variable {cfg : Config} {w w' : World} {m : Tick} {a : Action} {c : Claim} {t : Time}
  {h : List (World × Tick)}

/-! ## Sections -/

theorem mem_sections : c ∈ (sections w).fetching ↔
    c ∈ w.sys.claims ∧ (w.points c).inSection = true := by
  simp [sections]

theorem look_not_inSection (cfg : Config) (s : Store) (time : Time) (c : Claim) :
    (look cfg s time c).inSection = false := by
  unfold look
  split
  · rfl
  · split
    · rfl
    · split <;> rfl

theorem afterFinish_not_inSection (webhooks : List Webhook) :
    (afterFinish webhooks).inSection = false := by
  unfold afterFinish
  split <;> rfl

/-- The steps that lead into a section or on in it: the lock is got, the second look finds
nothing, the fetch starts. -/
theorem next_inSection {s : Store} {time : Time} {p p' : Point}
    (hnext : p.next cfg s time c = some p') (hin : p'.inSection = true) :
    (∃ began, p = .locking began ∧ p' = .locked ∧ (lockDomain s began c).2 = true) ∨
      (p = .locked ∧ p' = .cleared ∧
        cachedResult cfg s time (s.job c.jobId) c.domain c.notBefore = none) ∨
      (p = .cleared ∧ p' = .fetching) := by
  cases p with
  | ready =>
    simp only [Point.next, Option.some.injEq] at hnext
    simp [← hnext, look_not_inSection] at hin
  | locking began =>
    simp only [Point.next, Option.some.injEq] at hnext
    split at hnext
    · rename_i hgot
      exact .inl ⟨began, rfl, hnext.symm, hgot⟩
    · simp [← hnext, Point.inSection] at hin
  | locked =>
    simp only [Point.next, lookAgain, Option.some.injEq] at hnext
    split at hnext
    · simp [← hnext, Point.inSection] at hin
    · rename_i hmiss
      exact .inr (.inl ⟨rfl, hnext.symm, hmiss⟩)
  | cleared =>
    simp only [Point.next, Option.some.injEq] at hnext
    exact .inr (.inr ⟨rfl, hnext.symm⟩)
  | unlocking next =>
    simp only [Point.next, Option.some.injEq] at hnext
    cases next <;> simp [← hnext, AfterUnlock.point, Point.inSection] at hin
  | recording r | finishing began r fromCache writeCache =>
    simp only [Point.next, Option.some.injEq] at hnext
    simp [← hnext, afterFinish_not_inSection] at hin
  | _ =>
    simp only [Point.next, Option.some.injEq, reduceCtorEq] at hnext
    try (subst hnext; simp [Point.inSection] at hin)

/-- A handler in its section was there before and did not unlock, or got the lock just
now. -/
theorem section_change (hown : OwnCalls w m) {p : Point} (hchange : PointChange cfg w m c p)
    (hp : p.inSection = true) :
    ((w.points c).inSection = true ∧ ∀ a, queueAction cfg w m = some a → c ∉ a.op.unlocks) ∨
      ∃ a, queueAction cfg w m = some a ∧ a.op = .lockDomain c ∧
        (lockDomain w.sys.store a.now c).2 = true := by
  cases hchange with
  | same hstill =>
    refine .inl ⟨hp, fun a ha hunlocks => ?_⟩
    exact hstill (step_of_caller hown ha (mem_caller_of_unlocks hunlocks))
  | ends hmove hfetching => exact .inl ⟨by rw [hfetching]; rfl, by simp [queueAction, hmove]⟩
  | raised _ _ => simp [afterRaise, Point.inSection] at hp
  | die _ => simp [Point.inSection] at hp
  | step hmove hnext =>
    rcases next_inSection hnext hp with ⟨began, hpoint, _, hgot⟩ | ⟨hpoint, _⟩ | ⟨hpoint, _⟩
    · refine .inr ⟨⟨began, .lockDomain c⟩, ?_, rfl, hgot⟩
      simp [queueAction, hmove, hpoint, Point.action]
    · exact .inl ⟨by rw [hpoint]; rfl, by simp [queueAction, hmove, hpoint, Point.action]⟩
    · exact .inl ⟨by rw [hpoint]; rfl, by simp [queueAction, hmove, hpoint, Point.action]⟩

theorem lockInv_step (hlocks : LockInv (sections w))
    (hpoints : ∀ c, c ∉ w.sys.claims → w.points c = .ready) (hok : Careful cfg w m)
    (hstep : WorldStep cfg w m w') : LockInv (sections w') := by
  obtain ⟨hown, horderly, _⟩ := hok
  obtain ⟨henabled, hnext, _, ⟨hidle, hsys⟩ | ⟨a, ha, hop⟩⟩ := worldStep_cases hstep
  · have hsub : ∀ c ∈ (sections w').fetching, c ∈ (sections w).fetching := by
      intro c hc
      rw [mem_sections, hnext, hsys] at hc
      rcases section_change hown (pointChange henabled c) hc.2 with ⟨hin, _⟩ | ⟨a, ha, _⟩
      · exact mem_sections.mpr ⟨hc.1, hin⟩
      · simp [hidle] at ha
    have hshrunk := hlocks.shrink hsub
    rwa [show (sections w).sys = w'.sys from hsys.symm] at hshrunk
  · have hmove : LockStep (sections w) (.op a)
        ⟨w'.sys, fetchingAfter w.sys.store a (sections w).fetching⟩ := by
      have hop' : opStep w.sys a = some w'.sys := hop
      simp [LockStep, lockStep, sections, hop']
    refine (hlocks.step (horderly a ha) hmove).shrink fun c hc => ?_
    have hc' := (mem_sections (w := w')).mp hc
    rw [hnext] at hc'
    rcases section_change hown (pointChange henabled c) hc'.2 with ⟨hin, hkeeps⟩ | ⟨a', ha', hlock⟩
    · have hclaims : c ∈ w.sys.claims := by
        by_contra hnew
        simp [hpoints c hnew, Point.inSection] at hin
      exact mem_fetchingAfter.mpr (.inl ⟨mem_sections.mpr ⟨hclaims, hin⟩, hkeeps a ha⟩)
    · rw [ha, Option.some.injEq] at ha'
      subst ha'
      exact mem_fetchingAfter.mpr (.inr hlock)

/-! ## Publications -/

theorem published_cons {d : Str} : Published cfg ((w, m) :: h) d t ↔
    (∃ a c, queueAction cfg w m = some a ∧ publishes w.sys.store a = some (c, t) ∧ c.domain = d) ∨
      Published cfg h d t := by
  unfold Published
  cases ha : queueAction cfg w m with
  | none => simp [queueHistory_cons_of_none ha]
  | some a => simp [queueHistory_cons_of_some ha]

theorem publishes_iff {s : Store} : publishes s a = some (c, t) ↔
    a.now = t ∧ ∃ r, a.op = .finish c r false true ∧ (finish s t c r false true).2.1 = true := by
  obtain ⟨now, op⟩ := a
  cases op with
  | finish c' r fromCache writeCache =>
    cases fromCache with
    | true => simp [publishes]
    | false =>
      cases writeCache with
      | false => simp [publishes]
      | true =>
        simp only [publishes, Bool.not_false, Bool.and_self, Bool.true_and,
          Option.ite_none_right_eq_some, Option.some.injEq, Prod.mk.injEq, Op.finish.injEq,
          and_true]
        constructor
        · rintro ⟨hrec, rfl, rfl⟩
          exact ⟨rfl, r, ⟨rfl, rfl⟩, hrec⟩
        · rintro ⟨rfl, r', ⟨rfl, rfl⟩, hrec⟩
          exact ⟨hrec, rfl, rfl⟩
  | _ => simp [publishes]

theorem publisher (hown : OwnCalls w m) (ha : queueAction cfg w m = some a)
    (hpub : publishes w.sys.store a = some (c, t)) :
    m.move = .step c ∧ ∃ r, w.points c = .finishing t r false true := by
  obtain ⟨hnow, r, hop, _⟩ := publishes_iff.mp hpub
  have hmove := step_of_caller hown ha (c := c) (by simp [hop, Op.caller])
  refine ⟨hmove, r, ?_⟩
  simp only [queueAction, hmove] at ha
  cases hp : w.points c <;> simp only [hp, Point.action, Option.some.injEq, reduceCtorEq] at ha
  all_goals
    subst ha
    simp only [Op.finish.injEq, reduceCtorEq, Bool.true_eq_false, false_and, and_false] at hop
  obtain ⟨_, rfl, rfl, rfl⟩ := hop
  rw [← hnow]

theorem cached_change {s : Store} {d : Str} {row : DomainRow} (hmem : .domain d ∈ s.rows)
    (hchange : DomainChange s a d row) :
    (row.finishedAt = (s.domain d).finishedAt ∧ row.result = (s.domain d).result) ∨
      ∃ c, publishes s a = some (c, a.now) ∧ c.domain = d ∧ row.finishedAt = some a.now ∧
        row.result.isSome = true := by
  cases hchange with
  | same _ => exact .inl ⟨rfl, rfl⟩
  | lock _ _ _ _ =>
    rw [Store.domainOrNew, if_pos hmem]
    exact .inl ⟨rfl, rfl⟩
  | unlock _ _ _ | renew _ _ | release _ _ => exact .inl ⟨rfl, rfl⟩
  | @finish c r fromCache writeCache hop hd hrec =>
    simp only [records, hop, Bool.and_eq_true] at hrec
    cases hwrite : !fromCache && writeCache with
    | true =>
      refine .inr ⟨c, by simp [publishes, hop, hwrite, hrec.2], hd, ?_⟩
      simp only [DomainRow.finishedBy, if_true]
      split <;> exact ⟨rfl, rfl⟩
    | false =>
      left
      simp only [DomainRow.finishedBy, Bool.false_eq_true, if_false]
      split <;> exact ⟨rfl, rfl⟩

theorem cached_of_publishes {s : Store} (hmem : .domain c.domain ∈ s.rows)
    (hpub : publishes s a = some (c, t)) :
    ((a.op.apply a.now s).domain c.domain).finishedAt = some t ∧
      ((a.op.apply a.now s).domain c.domain).result.isSome = true := by
  obtain ⟨rfl, r, hop, hrec⟩ := publishes_iff.mp hpub
  rw [hop, Op.apply, workerFinish_store, finish_domain hrec, if_pos ⟨hmem, rfl⟩]
  simp only [DomainRow.finishedBy, Bool.not_false, Bool.and_self, if_true]
  split <;> exact ⟨rfl, rfl⟩

theorem createdAt_change {s : Store} {j : JobId} {job : Job} (hchange : JobChange s a j job) :
    job.createdAt = (s.job j).createdAt := by
  cases hchange <;> rfl

/-- A job that may not use a readable cached result is newer than it, or its row has been
requeued since. -/
theorem newer_of_miss {s : Store} {d : Str} {f clock : Time} {r : DomainResult} {job : Job}
    {notBefore : Option Time} (hmem : .domain d ∈ s.rows)
    (hfinished : (s.domain d).finishedAt = some f) (hresult : (s.domain d).result = some r)
    (hread : (cfg.validate r).isSome = true)
    (hmiss : cachedResult cfg s clock job d notBefore = none) :
    f < job.createdAt ∨ ∃ u ∈ notBefore, f < u := by
  by_contra hold
  simp only [not_or, not_lt, not_exists, not_and] at hold
  obtain ⟨hcreated, hrequeued⟩ := hold
  have husable : cacheUsable cfg clock job (s.domain d) notBefore = true := by
    simp only [cacheUsable, hfinished, hresult]
    rw [if_pos]
    cases notBefore with
    | none => exact hcreated
    | some u => exact max_le hcreated (hrequeued u rfl)
  rw [cachedResult, if_pos ⟨hmem, husable⟩, hresult, Option.bind_some] at hmiss
  simp [hmiss] at hread

/-! ## The invariant -/

/-- The cache holds every published result or a later one, and the handlers that passed
the second look were entitled to. -/
structure Once (cfg : Config) (h : List (World × Tick)) (w : World) : Prop where
  locks : LockInv (sections w)
  points : ∀ c, c ∉ w.sys.claims → w.points c = .ready
  cached : ∀ d t, Published cfg h d t → t ≤ w.clock ∧ .domain d ∈ w.sys.store.rows ∧
    (w.sys.store.domain d).result.isSome = true ∧
      ∃ f, (w.sys.store.domain d).finishedAt = some f ∧ t ≤ f
  cleared : ∀ c t, w.points c = .cleared → Published cfg h c.domain t →
    t < (w.sys.store.job c.jobId).createdAt ∨ ∃ u ∈ c.notBefore, t < u
  finishing : ∀ c t began r, w.points c = .finishing began r false true →
    Published cfg h c.domain t → t ≤ began

theorem Opened.once (hw : Opened w) : Once cfg [] w := by
  have hnone : ∀ d t, ¬ Published cfg [] d t := by simp [Published, queueHistory]
  constructor
  case locks =>
    refine LockInit.inv ⟨hw.tokens, hw.made, ?_⟩
    simp only [sections, List.filter_eq_nil_iff, Bool.not_eq_true]
    intro c hc
    rw [hw.gone c hc]
    rfl
  case points => exact hw.points
  case cached => exact fun d t hpub => absurd hpub (hnone d t)
  case cleared => exact fun c t _ hpub => absurd hpub (hnone _ t)
  case finishing => exact fun c t _ _ _ hpub => absurd hpub (hnone _ t)

theorem Once.mem_claims (hw : Once cfg h w) (hp : w.points c ≠ .ready) : c ∈ w.sys.claims := by
  by_contra hc
  exact hp (hw.points c hc)

/-- Nobody else publishes a result for the domain of a handler in its section. -/
theorem Once.publisher_unique (hw : Once cfg h w) (hown : OwnCalls w m)
    (ha : queueAction cfg w m = some a) {c' : Claim}
    (hpub : publishes w.sys.store a = some (c', t)) (hd : c'.domain = c.domain)
    (hin : (w.points c).inSection = true) : m.move = .step c ∧
      ∃ r, w.points c = .finishing t r false true := by
  obtain ⟨hmove, r, hp⟩ := publisher hown ha hpub
  have hin' : (w.points c').inSection = true := by
    rw [hp]
    rfl
  have hready : ∀ c, (w.points c).inSection = true → w.points c ≠ .ready := by
    intro c hc hcontra
    simp [hcontra, Point.inSection] at hc
  have hsame : c' = c := hw.locks.unique (mem_sections.mpr ⟨hw.mem_claims (hready c' hin'), hin'⟩)
    (mem_sections.mpr ⟨hw.mem_claims (hready c hin), hin⟩) hd
  exact hsame ▸ ⟨hmove, r, hp⟩

theorem Once.cached_step (hw : Once cfg h w) (hown : OwnCalls w m) (hstep : WorldStep cfg w m w')
    {d : Str} (hpub : Published cfg ((w, m) :: h) d t) :
    t ≤ w'.clock ∧ .domain d ∈ w'.sys.store.rows ∧
      (w'.sys.store.domain d).result.isSome = true ∧
        ∃ f, (w'.sys.store.domain d).finishedAt = some f ∧ t ≤ f := by
  obtain ⟨henabled, _, hclock, hcases⟩ := worldStep_cases hstep
  rw [hclock]
  rcases hcases with ⟨hidle, hsys⟩ | ⟨a, ha, hop⟩
  · rw [published_cons, hidle] at hpub
    obtain ⟨ht, hcached⟩ := hw.cached d t (hpub.resolve_left (by simp))
    rw [hsys]
    exact ⟨ht.trans henabled.1, hcached⟩
  · obtain ⟨⟨_, _, hpossible⟩, hsys⟩ := opStep_cases hop
    rw [hsys]
    rcases published_cons.mp hpub with ⟨a', c, ha', hnew, hd⟩ | hold
    · rw [ha, Option.some.injEq] at ha'
      subst ha' hd
      obtain ⟨_, r, hp⟩ := publisher hown ha hnew
      have hin : c ∈ (sections w).fetching :=
        mem_sections.mpr ⟨hw.mem_claims (by simp [hp]), by rw [hp]; rfl⟩
      have hmem := hw.locks.present c hin
      obtain ⟨hfinished, hresult⟩ := cached_of_publishes hmem hnew
      have hnow : t ≤ m.time := (publishes_iff.mp hnew).1 ▸ henabled.2.1 a ha
      exact ⟨hnow, (mem_rows_apply hpossible).mpr (.inl hmem), hresult, t, hfinished, le_rfl⟩
    · obtain ⟨ht, hmem, hresult, f, hfinished, hle⟩ := hw.cached d t hold
      refine ⟨ht.trans henabled.1, (mem_rows_apply hpossible).mpr (.inl hmem), ?_⟩
      rcases cached_change hmem (domainChange w.sys.store a hpossible d) with
        ⟨hf, hr⟩ | ⟨c, hnew, hd, hf, hr⟩
      · rw [hf, hr]
        exact ⟨hresult, f, hfinished, hle⟩
      · obtain ⟨_, r, hp⟩ := publisher hown ha hnew
        exact ⟨hr, a.now, hf, hw.finishing c t _ r hp (hd ▸ hold)⟩

theorem cleared_change {p : Point} (hchange : PointChange cfg w m c p) (hp : p = .cleared) :
    w.points c = .cleared ∨
      (queueAction cfg w m = none ∧ w.points c = .locked ∧
        cachedResult cfg w.sys.store m.time (w.sys.store.job c.jobId) c.domain c.notBefore =
          none) := by
  cases hchange with
  | same _ => exact .inl hp
  | @ends o _ _ =>
    have hadmitted := afterFetch_not_admitted cfg m.time c o
    simp [hp, Point.admitted] at hadmitted
  | raised _ _ => simp [afterRaise] at hp
  | die _ => simp at hp
  | step hmove hnext =>
    subst hp
    rcases next_inSection hnext rfl with ⟨_, _, hcontra, _⟩ | ⟨hpoint, _, hmiss⟩ | ⟨_, hcontra⟩
    · cases hcontra
    · exact .inr ⟨by simp [queueAction, hmove, hpoint, Point.action], hpoint, hmiss⟩
    · cases hcontra

theorem Once.cleared_step (hw : Once cfg h w) (hok : Careful cfg w m)
    (hstep : WorldStep cfg w m w') (hp : w'.points c = .cleared)
    (hpub : Published cfg ((w, m) :: h) c.domain t) :
    t < (w'.sys.store.job c.jobId).createdAt ∨ ∃ u ∈ c.notBefore, t < u := by
  obtain ⟨hown, _, hread⟩ := hok
  obtain ⟨henabled, hnext, _, hcases⟩ := worldStep_cases hstep
  rw [hnext] at hp
  have hcreated : (w'.sys.store.job c.jobId).createdAt = (w.sys.store.job c.jobId).createdAt := by
    rcases hcases with ⟨_, hsys⟩ | ⟨a, _, hop⟩
    · rw [hsys]
    · obtain ⟨⟨_, _, hpossible⟩, hsys⟩ := opStep_cases hop
      rw [hsys]
      exact createdAt_change (jobChange w.sys.store a hpossible c.jobId)
  rw [hcreated]
  rcases cleared_change (pointChange henabled c) hp with hbefore | ⟨hidle, hlocked, hmiss⟩
  · rcases published_cons.mp hpub with ⟨a, c', ha, hnew, hd⟩ | hold
    · obtain ⟨_, r, hcontra⟩ := hw.publisher_unique hown ha hnew hd (by rw [hbefore]; rfl)
      simp [hbefore] at hcontra
    · exact hw.cleared c t hbefore hold
  · rw [published_cons, hidle] at hpub
    obtain ⟨_, hmem, hresult, f, hfinished, hle⟩ :=
      hw.cached c.domain t (hpub.resolve_left (by simp))
    obtain ⟨r, hr⟩ := Option.isSome_iff_exists.mp hresult
    have hc := hw.mem_claims (c := c) (by simp [hlocked])
    rcases newer_of_miss hmem hfinished hr (hread c hc r hr) hmiss with hjob | ⟨u, hu, hlt⟩
    · exact .inl (hle.trans_lt hjob)
    · exact .inr ⟨u, hu, hle.trans_lt hlt⟩

/-- A handler that is to publish a result was there before, or begins its transaction
now. -/
theorem finishing_change {p : Point} {began : Time} {r : DomainResult}
    (hchange : PointChange cfg w m c p) (hp : p = .finishing began r false true) :
    (w.points c = .finishing began r false true ∧ m.move ≠ .step c) ∨
      (queueAction cfg w m = none ∧ began = m.time) := by
  cases hchange with
  | same hstill => exact .inl ⟨hp, hstill⟩
  | @ends o hmove _ =>
    refine .inr ⟨by simp [queueAction, hmove], ?_⟩
    cases o with
    | result r' =>
      simp only [afterFetch] at hp
      split at hp
      · simp at hp
      · simp only [Point.finishing.injEq] at hp
        exact hp.1.symm
    | accountError keyChanged =>
      simp only [afterFetch] at hp
      split at hp <;> simp at hp
    | error => simp [afterFetch] at hp
  | raised _ _ => simp [afterRaise] at hp
  | die _ => simp at hp
  | step _ hnext =>
    subst hp
    rcases next_inSection hnext rfl with ⟨_, _, hcontra, _⟩ | ⟨_, hcontra, _⟩ | ⟨_, hcontra⟩
    · cases hcontra
    · cases hcontra
    · cases hcontra

theorem Once.finishing_step (hw : Once cfg h w) (hown : OwnCalls w m)
    (hstep : WorldStep cfg w m w') {began : Time} {r : DomainResult}
    (hp : w'.points c = .finishing began r false true)
    (hpub : Published cfg ((w, m) :: h) c.domain t) : t ≤ began := by
  obtain ⟨henabled, hnext, _, _⟩ := worldStep_cases hstep
  rw [hnext] at hp
  rcases finishing_change (pointChange henabled c) hp with ⟨hbefore, hstill⟩ | ⟨hidle, hbegan⟩
  · rcases published_cons.mp hpub with ⟨a, c', ha, hnew, hd⟩ | hold
    · exact absurd (hw.publisher_unique hown ha hnew hd (by rw [hbefore]; rfl)).1 hstill
    · exact hw.finishing c t began r hbefore hold
  · rw [published_cons, hidle] at hpub
    rw [hbegan]
    exact (hw.cached c.domain t (hpub.resolve_left (by simp))).1.trans henabled.1

theorem Once.step (hw : Once cfg h w) (hok : Careful cfg w m) (hstep : WorldStep cfg w m w') :
    Once cfg ((w, m) :: h) w' := by
  constructor
  case locks => exact lockInv_step hw.locks hw.points hok hstep
  case points =>
    obtain ⟨henabled, hnext, _, hcases⟩ := worldStep_cases hstep
    intro c hc
    have hold : c ∉ w.sys.claims := by
      rcases hcases with ⟨_, hsys⟩ | ⟨a, _, hop⟩
      · rwa [hsys] at hc
      · rw [(opStep_cases hop).2] at hc
        exact fun hcontra => hc (List.mem_append_right _ hcontra)
    rw [hnext, point_of_not_claimed henabled hold, hw.points c hold]
  case cached => exact fun d t hpub => hw.cached_step hok.1 hstep hpub
  case cleared => exact fun c t hp hpub => hw.cleared_step hok hstep hp hpub
  case finishing => exact fun c t began r hp hpub => hw.finishing_step hok.1 hstep hp hpub

end

/-- With every lock renewed in time and every stored result readable: once a result has
been published in a transaction that began at `t`, `process_domain` is started for the
domain only by claims of a job created after `t` or of a row requeued after `t`; and when
a result is published nobody else is fetching the domain. -/
theorem shared_domain_fetched_once (cfg : Config) (h : List (World × Tick)) (w : World)
    (hrun : Transition.Run Opened (WorldStep cfg) h w)
    (hok : Transition.Guarded (Careful cfg) h) :
    Transition.Along (fun h w m _ =>
      (∀ c t, startsFetch c (w, m) = true → Published cfg h c.domain t →
        t < (w.sys.store.job c.jobId).createdAt ∨ ∃ u ∈ c.notBefore, t < u) ∧
      ∀ a c t, queueAction cfg w m = some a → publishes w.sys.store a = some (c, t) →
        ∀ c', w.points c' = .fetching → c'.domain = c.domain → c' = c) h w := by
  refine hrun.along_history (I := Once cfg) (fun w hw => hw.once)
    (fun h w m w' hw hok hs => hw.step hok hs) ?_ hok
  intro h w m w' hw hok hs
  constructor
  · intro c t hstart hpub
    refine hw.cleared c t ?_ hpub
    unfold startsFetch at hstart
    split at hstart
    · simp only [Bool.and_eq_true, decide_eq_true_eq] at hstart
      exact hstart.2
    · simp at hstart
  · intro a c t ha hpub c' hfetching hd
    obtain ⟨_, r, hp⟩ := hw.publisher_unique hok.1 ha hpub hd.symm (by rw [hfetching]; rfl)
    simp [hfetching] at hp

namespace NewerJob

def world : World := ⟨⟨SharedDomain.store, []⟩, fun _ => .ready, 0⟩

theorem world_opened : Opened world := by
  constructor
  case points => exact fun _ _ => rfl
  all_goals simp [world]

def first : Claim := ⟨0, "a".toList, 1, "w|x".toList, none⟩

def second : Claim := ⟨1, "a".toList, 1, "w|y".toList, none⟩

/-- The site of the first claim cannot be fetched, which is published in a transaction
that began at 1/2; the handler of the second claim then starts over. -/
def schedule : List Tick :=
  [⟨0, .env ⟨0, .claim "w".toList [⟨0, "x".toList, "a".toList⟩, ⟨1, "z".toList, "a".toList⟩]⟩⟩,
    ⟨0, .step first⟩, ⟨0, .step first⟩, ⟨0, .step first⟩, ⟨0, .step first⟩,
    ⟨1 / 2, .ends first (.result { domain := "a".toList, status := .fetchFailed })⟩,
    ⟨1, .step first⟩, ⟨2, .env ⟨2, .claim "w".toList [⟨1, "y".toList, "a".toList⟩]⟩⟩,
    ⟨2, .step second⟩, ⟨2, .step second⟩, ⟨3, .step second⟩, ⟨3, .step second⟩]

end NewerJob

/-- The second `process_domain` of the domain is for a job created after the first result
was published. -/
theorem newer_job_fetches_again : ∃ h w m w',
    Transition.Run Opened (WorldStep CrashLoop.config) ((w, m) :: h) w' ∧
      Transition.Guarded (Careful CrashLoop.config) ((w, m) :: h) ∧
      startsFetch NewerJob.second (w, m) = true ∧
      Published CrashLoop.config h "a".toList (1 / 2) ∧
      (1 / 2 : Time) < (w.sys.store.job 1).createdAt := by
  obtain ⟨h, w', hrun, hok, hlast, hpub⟩ :=
    Transition.Run.exists_of_exec Opened (worldStep CrashLoop.config) NewerJob.world
      NewerJob.world_opened NewerJob.schedule
      (fun p => (∀ q ∈ p.1, Careful CrashLoop.config q.1 q.2) ∧
        p.1.head?.any (startsFetch NewerJob.second) = true ∧
        ((queueHistory CrashLoop.config p.1.tail).any fun q =>
          decide (publishes q.1.store q.2 = some (NewerJob.first, 1 / 2))) = true)
      (by decide +kernel)
  cases h with
  | nil => simp at hlast
  | cons q h =>
    obtain ⟨w, m⟩ := q
    simp only [List.head?_cons, Option.any_some] at hlast
    simp only [List.tail_cons, List.any_eq_true, decide_eq_true_eq] at hpub
    obtain ⟨q, hq, hpublishes⟩ := hpub
    have hpublished : Published CrashLoop.config h "a".toList (1 / 2) :=
      ⟨q, hq, NewerJob.first, hpublishes, rfl⟩
    refine ⟨h, w, m, w', hrun, hok, hlast, hpublished, ?_⟩
    have honce := shared_domain_fetched_once CrashLoop.config _ w' hrun hok
    rcases honce.1.1 NewerJob.second (1 / 2) hlast hpublished with hjob | ⟨u, hu, _⟩
    · exact hjob
    · simp [NewerJob.second] at hu

end Worker

end EmailExtractor
