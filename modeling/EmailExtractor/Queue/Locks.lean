import EmailExtractor.Queue.Attempts

/-!
# One fetch per domain at a time

Between a successful `lock_domain` and its own `unlock_domain` or `finish` a claim is in
its fetch section. Two leases protect it, the row of the queue and the lock of the
domain, and they can disagree: a reaped claim still fetches. It is the lock alone that
keeps the sections of a domain apart, and it is guarded by the token of its claim, so no
other claim can clear it and nobody can take it before it expires.
-/

namespace EmailExtractor

namespace Queue

open List

structure Locks where
  sys : System
  fetching : List Claim

/-- A transaction, or the death of the handler of a claim. -/
inductive LockMove
  | op (a : Action)
  | died (c : Claim)

/-- The fetch sections after a transaction. -/
def fetchingAfter (s : Store) (a : Action) (fetching : List Claim) : List Claim :=
  match a.op with
  | .lockDomain c => if (lockDomain s a.now c).2 then c :: fetching else fetching
  | .unlockDomain c => fetching.filter fun c' => decide (c' ≠ c)
  | .finish c _ _ _ => fetching.filter fun c' => decide (c' ≠ c)
  | _ => fetching

def lockStep (x : Locks) : LockMove → Option Locks
  | .op a => (opStep x.sys a).map fun s => ⟨s, fetchingAfter x.sys.store a x.fetching⟩
  | .died c => some ⟨x.sys, x.fetching.filter fun c' => decide (c' ≠ c)⟩

abbrev LockStep (x : Locks) (m : LockMove) (x' : Locks) : Prop := lockStep x m = some x'

def LockMove.Ends (c : Claim) : LockMove → Prop
  | .op a => c ∈ a.op.unlocks
  | .died c' => c' = c

/-- A worker id without the separator of tokens and the metacharacters of `LIKE`. -/
def PlainId (worker : Str) : Prop := '|' ∉ worker ∧ Sql.Literal worker

instance (worker : Str) : Decidable (PlainId worker) :=
  inferInstanceAs (Decidable (_ ∧ _))

def Claim.MadeBy (c : Claim) (worker : Str) : Prop := ∃ hex, c.token = newToken worker hex

theorem Claim.madeBy_iff {c : Claim} {worker : Str} :
    c.MadeBy worker ↔ worker ++ ['|'] <+: c.token := by
  constructor
  · rintro ⟨hex, htok⟩
    exact ⟨hex, by simp [htok, newToken]⟩
  · rintro ⟨hex, htok⟩
    exact ⟨hex, by simp [← htok, newToken]⟩

instance (c : Claim) (worker : Str) : Decidable (c.MadeBy worker) :=
  decidable_of_iff _ Claim.madeBy_iff.symm

def Op.worker : Op → Option Str
  | .claim worker _ => some worker
  | .releaseWorker worker => some worker
  | _ => none

def Op.released : Op → Option Str
  | .releaseWorker worker => some worker
  | _ => none

/-- The workers have plain ids, a worker releases what it holds only after its handlers
have ended, and no lock of a live handler has expired at the time of a transaction. -/
def Orderly (x : Locks) : LockMove → Prop
  | .op a =>
    (∀ c ∈ x.fetching, ∀ u ∈ (x.sys.store.domain c.domain).lockUntil, a.now ≤ u) ∧
      (∀ worker ∈ a.op.worker, PlainId worker) ∧
      ∀ worker ∈ a.op.released, ∀ c ∈ x.fetching, ¬ c.MadeBy worker
  | .died _ => True

instance (x : Locks) (m : LockMove) : Decidable (Orderly x m) :=
  match m with
  | .op _ => inferInstanceAs (Decidable (_ ∧ _ ∧ _))
  | .died _ => isTrue trivial

/-- Any store, with any claims of workers with plain ids and distinct tokens, and no
fetch under way. -/
structure LockInit (x : Locks) : Prop where
  tokens : (x.sys.claims.map Claim.token).Nodup
  made : ∀ c ∈ x.sys.claims, ∃ worker, PlainId worker ∧ c.MadeBy worker
  fetching : x.fetching = []

section

/-! ## Tokens and patterns -/

theorem takeWhile_newToken {worker : Str} (h : '|' ∉ worker) (hex : Str) :
    (newToken worker hex).takeWhile (fun c => decide (c ≠ '|')) = worker := by
  rw [newToken, takeWhile_append_of_pos]
  · simp
  · intro c hc
    simp only [ne_eq, decide_eq_true_eq]
    rintro rfl
    exact h hc

theorem like_tokenPattern {worker : Str} (h : Sql.Literal worker) (tok : Str) :
    Sql.like (tokenPattern worker) tok = true ↔ worker ++ ['|'] <+: tok := by
  have hpattern : tokenPattern worker = (worker ++ ['|']) ++ ['%'] := by
    simp [tokenPattern]
  have hbar : Sql.Literal ['|'] := by decide
  rw [hpattern, Sql.like_literal_append (h.append hbar)]

theorem eq_of_like_tokenPattern {worker worker' hex : Str} (h : PlainId worker)
    (h' : PlainId worker')
    (hlike : Sql.like (tokenPattern worker) (newToken worker' hex) = true) :
    worker = worker' := by
  obtain ⟨rest, hrest⟩ := (like_tokenPattern h.2 _).mp hlike
  have htoken : newToken worker rest = newToken worker' hex := by
    rw [← hrest]
    simp [newToken]
  rw [← takeWhile_newToken h.1 rest, htoken, takeWhile_newToken h'.1]

/-! ## The lock of a live claim -/

variable {s : Store} {a : Action} {d tok : Str}

/-- An operation leaves a lock alone that has not expired, unless it is the unlocking
or the `finish` of its token or releases a pattern that matches it. -/
theorem lockOwner_kept (hpossible : a.op.Possible a.now s) (hmem : .domain d ∈ s.rows)
    (howner : (s.domain d).lockOwner = some tok)
    (hlease : ∀ u ∈ (s.domain d).lockUntil, a.now ≤ u)
    (hother : ∀ c ∈ a.op.unlocks, c.token ≠ tok)
    (hrelease : ∀ worker, a.op = .releaseWorker worker →
      Sql.like (tokenPattern worker) tok = false) :
    ((a.op.apply a.now s).domain d).lockOwner = some tok := by
  have hchange := domainChange s a hpossible d
  generalize (a.op.apply a.now s).domain d = row at hchange ⊢
  cases hchange with
  | same _ => exact howner
  | lock hop hd hgot hfree =>
    -- a lock that has not expired cannot be taken
    rw [Store.domainOrNew, if_pos hmem] at hfree
    simp only [DomainRow.lockable, howner, Option.isNone_some, Bool.false_or,
      Option.any_eq_true, decide_eq_true_eq] at hfree
    obtain ⟨u, hu, hlt⟩ := hfree
    exact absurd (hlease u hu) (not_le.mpr hlt)
  | unlock hop hd hsame =>
    rw [howner, Option.some.injEq] at hsame
    exact absurd hsame.symm (hother _ hop)
  | @finish c result fromCache writeCache hop hd hrec =>
    have hne : c.token ≠ tok := hother c (by simp [hop, Op.unlocks])
    rw [DomainRow.lockOwner_finishedBy, howner, if_neg]
    simpa using fun h => hne h.symm
  | renew hop hlocked => exact howner
  | release hop hlike =>
    simp only [DomainRow.lockedLike, howner, Option.any_some] at hlike
    simp [hrelease _ hop] at hlike

theorem lockOwner_got {now : Time} {c : Claim} (hgot : (lockDomain s now c).2 = true) :
    .domain c.domain ∈ (lockDomain s now c).1.rows ∧
      ((lockDomain s now c).1.domain c.domain).lockOwner = some c.token := by
  rw [lockDomain_got] at hgot
  constructor
  · rw [lockDomain_eq]
    exact Store.mem_withDomain.mpr (.inl rfl)
  · rw [lockDomain_domain, if_pos ⟨rfl, hgot⟩]
    rfl

/-! ## The invariant -/

structure LockInv (x : Locks) : Prop where
  tokens : (x.sys.claims.map Claim.token).Nodup
  made : ∀ c ∈ x.sys.claims, ∃ worker, PlainId worker ∧ c.MadeBy worker
  handedOut : ∀ c ∈ x.fetching, c ∈ x.sys.claims
  present : ∀ c ∈ x.fetching, .domain c.domain ∈ x.sys.store.rows
  owner : ∀ c ∈ x.fetching, (x.sys.store.domain c.domain).lockOwner = some c.token

theorem LockInit.inv {x : Locks} (h : LockInit x) : LockInv x := by
  constructor
  case tokens => exact h.tokens
  case made => exact h.made
  all_goals simp [h.fetching]

variable {x x' : Locks} {m : LockMove} {c : Claim}

theorem LockInv.eq_of_token (h : LockInv x) {c' : Claim} (hc : c ∈ x.sys.claims)
    (hc' : c' ∈ x.sys.claims) (htok : c.token = c'.token) : c = c' :=
  inj_on_of_nodup_map h.tokens hc hc' htok

theorem LockInv.unique (h : LockInv x) {c' : Claim} (hc : c ∈ x.fetching) (hc' : c' ∈ x.fetching)
    (hd : c.domain = c'.domain) : c = c' := by
  have howner := h.owner c hc
  rw [hd, h.owner c' hc', Option.some.injEq] at howner
  exact h.eq_of_token (h.handedOut c hc) (h.handedOut c' hc') howner.symm

theorem LockInv.shrink (h : LockInv x) {fetching : List Claim}
    (hsub : ∀ c ∈ fetching, c ∈ x.fetching) : LockInv ⟨x.sys, fetching⟩ :=
  ⟨h.tokens, h.made, fun c hc => h.handedOut c (hsub c hc), fun c hc => h.present c (hsub c hc),
    fun c hc => h.owner c (hsub c hc)⟩

theorem LockInv.kept (h : LockInv x) (hok : Orderly x (.op a)) (henabled : a.op.Enabled a.now x.sys)
    (hc : c ∈ x.fetching) (hother : c ∉ a.op.unlocks) :
    ((a.op.apply a.now x.sys.store).domain c.domain).lockOwner = some c.token := by
  obtain ⟨hcaller, _, hpossible⟩ := henabled
  apply lockOwner_kept hpossible (h.present c hc) (h.owner c hc) (hok.1 c hc)
  · intro c' hc' htok
    have hclaims : c' ∈ x.sys.claims := by
      apply hcaller
      cases hop : a.op <;> simp [hop, Op.unlocks] at hc' <;> simp [Op.caller, hc']
    rw [h.eq_of_token hclaims (h.handedOut c hc) htok] at hc'
    exact hother hc'
  · intro worker hop
    obtain ⟨_, hplain, hended⟩ := hok
    have hplain := hplain worker (by simp [hop, Op.worker])
    have hended := hended worker (by simp [hop, Op.released]) c hc
    obtain ⟨worker', hplain', hex, htok⟩ := h.made c (h.handedOut c hc)
    by_contra hlike
    rw [Bool.not_eq_false, htok] at hlike
    have hsame := eq_of_like_tokenPattern hplain hplain' hlike
    exact hended ⟨hex, hsame ▸ htok⟩

/-- The claims in a fetch section after a transaction: those that were and did not end
it, and the one that got the lock. -/
theorem mem_fetchingAfter {fetching : List Claim} :
    c ∈ fetchingAfter s a fetching ↔
      (c ∈ fetching ∧ c ∉ a.op.unlocks) ∨
        (a.op = .lockDomain c ∧ (lockDomain s a.now c).2 = true) := by
  obtain ⟨now, op⟩ := a
  cases op with
  | lockDomain c' =>
    simp only [fetchingAfter, Op.unlocks, Option.not_mem_none, not_false_eq_true, and_true,
      Op.lockDomain.injEq]
    split
    · rename_i hgot
      rw [mem_cons, or_comm]
      constructor
      · rintro (hc | rfl)
        · exact .inl hc
        · exact .inr ⟨rfl, hgot⟩
      · rintro (hc | ⟨rfl, _⟩)
        · exact .inl hc
        · exact .inr rfl
    · rename_i hbusy
      constructor
      · exact .inl
      · rintro (hc | ⟨rfl, hgot⟩)
        · exact hc
        · exact absurd hgot hbusy
  | unlockDomain c' | finish c' result fromCache writeCache =>
    simp [fetchingAfter, Op.unlocks, eq_comm (a := c)]
  | _ => simp [fetchingAfter, Op.unlocks]

theorem claimed_cases {now : Time} {op : Op} (hpossible : op.Possible now s)
    (hclaimed : op.claimed now s = some c) :
    ∃ worker tries hex, op = .claim worker tries ∧ c.token = newToken worker hex ∧
      .row c.jobId c.domain ∈ s.rows ∧ c.notBefore = (s.row c.jobId c.domain).requeuedAt ∧
      c.attempts = (s.row c.jobId c.domain).attempts + 1 := by
  cases op with
  | claim worker tries =>
    rcases claim_cases worker hpossible with hnone | ⟨t, _, _, hmem, _, hclaim⟩
    · simp [Op.claimed, hnone] at hclaimed
    · simp only [Op.claimed, hclaim, Option.some.injEq] at hclaimed
      subst hclaimed
      exact ⟨worker, tries, t.hex, rfl, rfl, hmem, rfl, rfl⟩
  | _ => simp [Op.claimed] at hclaimed

theorem LockInv.step (h : LockInv x) (hok : Orderly x m) (hstep : LockStep x m x') :
    LockInv x' := by
  cases m with
  | died c =>
    simp only [LockStep, lockStep, Option.some.injEq] at hstep
    subst hstep
    exact h.shrink fun c' hc' => mem_of_mem_filter hc'
  | op a =>
    simp only [LockStep, lockStep, Option.map_eq_some_iff] at hstep
    obtain ⟨s, hs, rfl⟩ := hstep
    obtain ⟨henabled, rfl⟩ := opStep_cases hs
    obtain ⟨hcaller, _, hpossible⟩ := id henabled
    have hclaims : ∀ c ∈ x.sys.claims,
        c ∈ (a.op.claimed a.now x.sys.store).toList ++ x.sys.claims :=
      fun c hc => mem_append_right _ hc
    constructor
    case tokens => exact nodup_tokens_step h.tokens henabled
    case made =>
      intro c hc
      rcases mem_append.mp hc with hc | hc
      · rw [Option.mem_toList] at hc
        obtain ⟨worker, tries, hex, hop, htok, -⟩ := claimed_cases hpossible hc
        exact ⟨worker, hok.2.1 worker (by simp [hop, Op.worker]), hex, htok⟩
      · exact h.made c hc
    case handedOut =>
      intro c hc
      rcases mem_fetchingAfter.mp hc with ⟨hc, _⟩ | ⟨hop, _⟩
      · exact hclaims c (h.handedOut c hc)
      · exact hclaims c (hcaller c (by simp [hop, Op.caller]))
    case present =>
      intro c hc
      rcases mem_fetchingAfter.mp hc with ⟨hc, _⟩ | ⟨hop, hgot⟩
      · exact (mem_rows_apply hpossible).mpr (.inl (h.present c hc))
      · exact (mem_rows_apply hpossible).mpr (.inr ⟨c, hop, rfl⟩)
    case owner =>
      intro c hc
      rcases mem_fetchingAfter.mp hc with ⟨hc, hother⟩ | ⟨hop, hgot⟩
      · exact h.kept hok henabled hc hother
      · have howner := (lockOwner_got hgot).2
        simpa only [hop, Op.apply] using howner

end

/-- In every orderly run the claims in a fetch section of one domain are one claim, they
hold the lock of their domain, and no transaction but its own end takes the lock from a
live claim or ends its section. -/
theorem one_fetch_per_domain (h : List (Locks × LockMove)) (x : Locks)
    (hrun : Transition.Run LockInit LockStep h x) (hok : Transition.Guarded Orderly h) :
    (∀ c ∈ x.fetching, ∀ c' ∈ x.fetching, c.domain = c'.domain → c = c') ∧
      (∀ c ∈ x.fetching, (x.sys.store.domain c.domain).lockOwner = some c.token) ∧
      Transition.Along (fun _ y m y' => ∀ c ∈ y.fetching, ¬ m.Ends c → c ∈ y'.fetching ∧
        (y'.sys.store.domain c.domain).lockOwner = some c.token) h x := by
  have hinv : LockInv x := hrun.invariant (fun _ hx => hx.inv)
    (fun _ _ _ hx ho hs => hx.step ho hs) hok
  refine ⟨fun c hc c' hc' hd => hinv.unique hc hc' hd, hinv.owner, ?_⟩
  refine hrun.along (I := LockInv) (fun _ hx => hx.inv) (fun _ _ _ hx ho hs => hx.step ho hs)
    ?_ hok
  intro _ y m y' hy ho hs c hc hends
  have hin : c ∈ y'.fetching := by
    cases m with
    | died c' =>
      simp only [LockStep, lockStep, Option.some.injEq] at hs
      subst hs
      exact mem_filter.mpr ⟨hc, by simpa using fun hcc => hends (Eq.symm hcc)⟩
    | op a =>
      simp only [LockStep, lockStep, Option.map_eq_some_iff] at hs
      obtain ⟨s, _, rfl⟩ := hs
      exact mem_fetchingAfter.mpr (.inl ⟨hc, hends⟩)
  exact ⟨hin, (hy.step ho hs).owner c hin⟩

namespace SharedDomain

/-- Two jobs with a row for the same domain. -/
def store : Store :=
  .blank {.job 0, .job 1, .row 0 "a".toList, .row 1 "a".toList, .domain "a".toList} fun j =>
    { createdAt := j }

def first : Claim := ⟨0, "a".toList, 1, "v|x".toList, none⟩

def second : Claim := ⟨1, "a".toList, 1, "w|y".toList, none⟩

/-- The first claim gets the lock and its row is reaped; the second one fails to get the
lock, is kept alive and unlocks all the same. -/
def schedule : List LockMove :=
  [.op ⟨0, .claim "v".toList [⟨0, "x".toList, "a".toList⟩, ⟨1, "z".toList, "a".toList⟩]⟩,
    .op ⟨0, .claim "w".toList [⟨1, "y".toList, "a".toList⟩]⟩, .op ⟨1, .lockDomain first⟩,
    .op ⟨2, .lockDomain second⟩, .op ⟨80, .heartbeat ["w|y".toList]⟩, .op ⟨91, .reap⟩,
    .op ⟨91, .unlockDomain second⟩]

def start : Locks := ⟨⟨store, []⟩, []⟩

theorem start_init : LockInit start := ⟨by simp [start], by simp [start], rfl⟩

end SharedDomain

/-- The reaped claim keeps its lock while another one tries to take and to clear it. -/
theorem reaped_claim_keeps_its_lock : ∃ h x, Transition.Run LockInit LockStep h x ∧
    Transition.Guarded Orderly h ∧ h.length = 7 ∧
    (x.sys.store.row 0 "a".toList).state = .queued ∧ SharedDomain.first ∈ x.fetching ∧
    (x.sys.store.domain "a".toList).lockOwner = some "v|x".toList := by
  obtain ⟨h, x, hrun, hok, hlen, hqueued, hfetching⟩ := Transition.Run.exists_of_exec
    LockInit lockStep SharedDomain.start SharedDomain.start_init SharedDomain.schedule
    (fun p => (∀ q ∈ p.1, Orderly q.1 q.2) ∧ p.1.length = 7 ∧
      (p.2.sys.store.row 0 "a".toList).state = .queued ∧ SharedDomain.first ∈ p.2.fetching)
    (by decide +kernel)
  exact ⟨h, x, hrun, hok, hlen, hqueued, hfetching,
    (one_fetch_per_domain h x hrun hok).2.1 SharedDomain.first hfetching⟩

end Queue

end EmailExtractor
