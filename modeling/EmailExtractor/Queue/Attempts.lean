import EmailExtractor.Queue.Effects

/-!
# Well-formed rows and their attempts

A row of `job_domains` is running exactly while a claim holds it, and its `attempts`
count the claims made of it since it was created or last retried, less the refunded
ones. Three operations put a row back, with three ways to adjust the count; they agree
because a running row has been claimed at least once.

The claims that still count are kept in a ledger, latest first. A claim carries the
count with itself included, so the `n`-th claim of the ledger from its end carries
`n`.
-/

namespace EmailExtractor

namespace Queue

open List

/-- The token is that of a claim of the row, with the row's attempts. -/
def Claim.Holds (c : Claim) (tok : Str) (j : JobId) (d : Str) (r : JobDomain) : Prop :=
  c.token = tok ∧ c.jobId = j ∧ c.domain = d ∧ c.attempts = r.attempts

structure RowSane (claims : List Claim) (j : JobId) (d : Str) (r : JobDomain) : Prop where
  running : r.state = .running ↔ r.claimedBy.isSome = true
  beats : r.state = .running → r.heartbeatAt.isSome = true
  counted : r.state = .running → 1 ≤ r.attempts
  nonneg : 0 ≤ r.attempts
  held : ∀ tok ∈ r.claimedBy, ∃ c ∈ claims, c.Holds tok j d r

structure Sane (s : System) : Prop where
  tokens : (s.claims.map Claim.token).Nodup
  rows : ∀ j d, .row j d ∈ s.store.rows → RowSane s.claims j d (s.store.row j d)

section

variable {s s' : System} {a : Action} {j : JobId} {d : Str} {claims : List Claim}
  {r : JobDomain}

/-! ## Rows -/

theorem RowSane.mono {claims' : List Claim} (h : RowSane claims j d r)
    (hsub : ∀ c ∈ claims, c ∈ claims') : RowSane claims' j d r := by
  refine { h with held := ?_ }
  intro tok htok
  obtain ⟨c, hc, hholds⟩ := h.held tok htok
  exact ⟨c, hsub c hc, hholds⟩

theorem rowSane_of_unclaimed (hstate : r.state ≠ .running) (hclaimed : r.claimedBy = none)
    (hnonneg : 0 ≤ r.attempts) : RowSane claims j d r := by
  constructor
  case running => simp [hstate, hclaimed]
  case beats => exact fun h => absurd h hstate
  case counted => exact fun h => absurd h hstate
  case nonneg => exact hnonneg
  case held => simp [hclaimed]

theorem JobDomain.heldBy_iff {tok : Str} :
    r.heldBy tok = true ↔ r.state = .running ∧ r.claimedBy = some tok := by
  simp [JobDomain.heldBy]

theorem Claim.owns_iff {c : Claim} : c.owns j d r = true ↔
    j = c.jobId ∧ d = c.domain ∧ r.state = .running ∧ r.claimedBy = some c.token := by
  simp only [Claim.owns, Bool.and_eq_true, decide_eq_true_eq, JobDomain.heldBy_iff]
  tauto

theorem JobDomain.heldLike_iff {pattern : Str} : r.heldLike pattern = true ↔
    r.state = .running ∧ ∃ tok, r.claimedBy = some tok ∧ Sql.like pattern tok = true := by
  simp [JobDomain.heldLike, Option.any_eq_true]

theorem rowSane_change {s : Store} (h : RowSane claims j d (s.row j d)) {r : JobDomain}
    (hchange : RowChange s a j d r) :
    RowSane ((a.op.claimed a.now s).toList ++ claims) j d r := by
  have hsub : ∀ c ∈ claims, c ∈ (a.op.claimed a.now s).toList ++ claims := by
    intro c hc
    exact mem_append_right _ hc
  cases hchange with
  | same => exact h.mono hsub
  | @claim _ _ c hop hclaimed hj hd hattempts =>
    have hnonneg := h.nonneg
    constructor
    case running => simp [JobDomain.claimed]
    case beats => simp [JobDomain.claimed]
    case counted =>
      intro _
      simp only [JobDomain.claimed]
      omega
    case nonneg =>
      simp only [JobDomain.claimed]
      omega
    case held =>
      intro tok htok
      simp only [JobDomain.claimed, Option.mem_def, Option.some.injEq] at htok
      refine ⟨c, by simp [hclaimed], htok, hj, hd, hattempts⟩
  | requeue hop howns =>
    obtain ⟨_, _, hrunning, _⟩ := Claim.owns_iff.mp howns
    have hcounted := h.counted hrunning
    apply rowSane_of_unclaimed
    · simp [JobDomain.requeued]
    · rfl
    · simp only [JobDomain.requeued]
      split <;> omega
  | finish hop howns =>
    apply rowSane_of_unclaimed
    · simp [JobDomain.finished]
    · rfl
    · exact h.nonneg
  | beat hop hheld =>
    refine (h.mono hsub).casesOn ?_
    intro hrunning _ hcounted hnonneg hheld
    exact ⟨hrunning, fun _ => rfl, hcounted, hnonneg, hheld⟩
  | reap hop _ =>
    apply rowSane_of_unclaimed
    · simp [JobDomain.reaped]
    · rfl
    · exact h.nonneg
  | release hop _ =>
    apply rowSane_of_unclaimed
    · simp [JobDomain.released]
    · rfl
    · simp [JobDomain.released]
  | retry hop _ =>
    apply rowSane_of_unclaimed
    · simp [JobDomain.requeuedFailed]
    · rfl
    · simp [JobDomain.requeuedFailed]

/-! ## Runs -/

theorem nodup_tokens_step (h : (s.claims.map Claim.token).Nodup)
    (henabled : a.op.Enabled a.now s) :
    (((a.op.claimed a.now s.store).toList ++ s.claims).map Claim.token).Nodup := by
  obtain ⟨_, hfresh, _⟩ := henabled
  cases hclaimed : a.op.claimed a.now s.store with
  | none => simpa using h
  | some c =>
    simp only [Option.toList_some, singleton_append, map_cons, nodup_cons,
      mem_map, not_exists, not_and]
    exact ⟨fun c' hc' => hfresh c hclaimed c' hc', h⟩

theorem sane_step (h : Sane s) (hstep : OpStep s a s') : Sane s' := by
  obtain ⟨henabled, rfl⟩ := opStep_cases hstep
  constructor
  case tokens => exact nodup_tokens_step h.tokens henabled
  case rows =>
    intro j d hmem
    have hmem' := (row_mem_apply henabled.2.2).mp hmem
    exact rowSane_change (h.rows j d hmem') (rowChange henabled hmem')

theorem Sane.row_unique (h : Sane s) {j' : JobId} {d' : Str} {tok : Str}
    (hmem : .row j d ∈ s.store.rows) (hmem' : .row j' d' ∈ s.store.rows)
    (htok : (s.store.row j d).claimedBy = some tok)
    (htok' : (s.store.row j' d').claimedBy = some tok) : j = j' ∧ d = d' := by
  obtain ⟨c, hc, hcTok, hcj, hcd, _⟩ := (h.rows j d hmem).held tok htok
  obtain ⟨c', hc', hcTok', hcj', hcd', _⟩ := (h.rows j' d' hmem').held tok htok'
  have hsame : c = c' := inj_on_of_nodup_map h.tokens hc hc' (hcTok.trans hcTok'.symm)
  rw [← hcj, ← hcd, hsame]
  exact ⟨hcj', hcd'⟩

theorem Sane.holds (h : Sane s) {c : Claim} (hc : c ∈ s.claims) (hmem : .row j d ∈ s.store.rows)
    (htok : (s.store.row j d).claimedBy = some c.token) :
    c.Holds c.token j d (s.store.row j d) := by
  obtain ⟨c', hc', hholds⟩ := (h.rows j d hmem).held c.token htok
  have hsame : c' = c := inj_on_of_nodup_map h.tokens hc' hc hholds.1
  exact hsame ▸ hholds

/-! ## The ledger -/

/-- The claims of the row made since its last retry and not refunded, latest first. -/
def ledger (j : JobId) (d : Str) : List (System × Action) → List Claim
  | [] => []
  | (s, a) :: h =>
    if retriesRow j d s.store a then []
    else
      ((a.op.claimed a.now s.store).filter fun c =>
          decide (c.jobId = j) && decide (c.domain = d)).toList ++
        if refundsRow j d s.store a then
          (ledger j d h).filter fun c => decide (some c.token ≠ (s.store.row j d).claimedBy)
        else ledger j d h

/-- The stretch of a history since the last retry of the row. -/
def sinceRetry (j : JobId) (d : Str) (h : List (System × Action)) : List (System × Action) :=
  h.takeWhile fun p => !retriesRow j d p.1.store p.2

def claimsSince (j : JobId) (d : Str) (h : List (System × Action)) : ℕ :=
  (sinceRetry j d h).countP fun p => claimsRow j d p.1.store p.2

def refundsSince (j : JobId) (d : Str) (h : List (System × Action)) : ℕ :=
  (sinceRetry j d h).countP fun p => refundsRow j d p.1.store p.2

/-- Every claim carries the number of claims up to itself. -/
def Counted : List Claim → Prop
  | [] => True
  | c :: l => c.attempts = l.length + 1 ∧ Counted l

theorem Counted.length_filter_le {l : List Claim} (h : Counted l) (n : ℤ) :
    (l.filter fun c => decide (c.attempts ≤ n)).length ≤ n.toNat := by
  induction l with
  | nil => simp
  | cons c l ih =>
    obtain ⟨hc, hl⟩ := h
    rw [filter_cons]
    split
    · rename_i hle
      have hlen := List.length_filter_le (fun c => decide (c.attempts ≤ n)) l
      simp only [decide_eq_true_eq] at hle
      rw [length_cons]
      omega
    · exact ih hl

structure Ledger (claims : List Claim) (l : List Claim) (r : JobDomain) : Prop where
  handedOut : l.Sublist claims
  counted : Counted l
  length : (l.length : ℤ) = r.attempts
  latest : ∀ tok ∈ r.claimedBy, ∃ c rest, l = c :: rest ∧ c.token = tok

section

variable {l : List Claim} (h : Ledger claims l r)

include h

theorem Ledger.of_unclaimed {r' : JobDomain} (hclaimed : r'.claimedBy = none)
    (hattempts : r'.attempts = r.attempts) : Ledger claims l r' := by
  refine { h with length := ?_, latest := ?_ }
  · rw [hattempts]
    exact h.length
  · simp [hclaimed]

theorem Ledger.refund {r' : JobDomain} {tok : Str} (hnodup : (claims.map Claim.token).Nodup)
    (htok : r.claimedBy = some tok) (hclaimed : r'.claimedBy = none)
    (hattempts : r'.attempts = r.attempts - 1) :
    Ledger claims (l.filter fun c => decide (some c.token ≠ r.claimedBy)) r' := by
  obtain ⟨c, rest, rfl, rfl⟩ := h.latest tok htok
  have htokens : ((c :: rest).map Claim.token).Nodup := hnodup.sublist (h.handedOut.map _)
  have hrest : (c :: rest).filter (fun c' => decide (some c'.token ≠ r.claimedBy)) = rest := by
    rw [filter_cons_of_neg (by simp [htok]), filter_eq_self]
    intro c' hc'
    rw [map_cons, nodup_cons] at htokens
    simp only [htok, ne_eq, Option.some.injEq, decide_eq_true_eq]
    intro hsame
    exact htokens.1 (hsame ▸ mem_map_of_mem hc')
  rw [hrest]
  have hlen := h.length
  constructor
  case handedOut => exact (sublist_cons_self c rest).trans h.handedOut
  case counted => exact h.counted.2
  case length =>
    rw [length_cons] at hlen
    omega
  case latest => simp [hclaimed]

theorem Ledger.claim {r' : JobDomain} {c : Claim} (hc : c.attempts = r.attempts + 1)
    (hclaimed : r'.claimedBy = some c.token) (hattempts : r'.attempts = r.attempts + 1) :
    Ledger (c :: claims) (c :: l) r' := by
  have hlen := h.length
  constructor
  case handedOut => exact h.handedOut.cons_cons c
  case counted =>
    refine ⟨?_, h.counted⟩
    omega
  case length =>
    rw [length_cons]
    omega
  case latest =>
    intro tok htok
    simp only [hclaimed, Option.mem_def, Option.some.injEq] at htok
    exact ⟨c, l, rfl, htok⟩

end

theorem ledger_cons_other {h : List (System × Action)}
    (hclaim : claimsRow j d s.store a = false) (hrefund : refundsRow j d s.store a = false)
    (hretry : retriesRow j d s.store a = false) :
    ledger j d ((s, a) :: h) = ledger j d h := by
  have hnone : ((a.op.claimed a.now s.store).filter fun c =>
      decide (c.jobId = j) && decide (c.domain = d)) = none := by
    rw [claimsRow, Option.any_eq_false] at hclaim
    rw [Option.filter_eq_none_iff]
    intro c hc
    simp [hclaim c hc]
  rw [ledger, hretry, hrefund, hnone]
  rfl

theorem Ledger.mono {l claims' : List Claim} (h : Ledger claims l r)
    (hsub : claims.Sublist claims') : Ledger claims' l r :=
  { h with handedOut := h.handedOut.trans hsub }

theorem claimed_eq_none {s : Store} (hop : ∀ worker tries, a.op ≠ .claim worker tries) :
    a.op.claimed a.now s = none := by
  obtain ⟨now, op⟩ := a
  cases op with
  | claim worker tries => exact absurd rfl (hop worker tries)
  | _ => rfl

theorem claimsRow_eq_false {s : Store} (hop : ∀ worker tries, a.op ≠ .claim worker tries) :
    claimsRow j d s a = false := by
  rw [claimsRow, claimed_eq_none hop]
  rfl

theorem ledger_step {h : List (System × Action)} (hsane : Sane s)
    (hmem : .row j d ∈ s.store.rows)
    (hledger : Ledger s.claims (ledger j d h) (s.store.row j d)) {r : JobDomain}
    (hchange : RowChange s.store a j d r) :
    Ledger ((a.op.claimed a.now s.store).toList ++ s.claims) (ledger j d ((s, a) :: h)) r := by
  have hrow := hsane.rows j d hmem
  cases hchange with
  | same hclaim hrefund hretry _ =>
    rw [ledger_cons_other hclaim hrefund hretry]
    exact hledger.mono (sublist_append_right _ _)
  | @claim _ _ c hop hclaimed hj hd hattempts =>
    have hcons : ledger j d ((s, a) :: h) = c :: ledger j d h := by
      rw [ledger, hclaimed, Option.filter_some_pos (by simp [hj, hd])]
      simp [retriesRow, refundsRow, hop]
    rw [hcons, hclaimed]
    exact hledger.claim hattempts rfl rfl
  | @requeue c delay countAttempt hop howns =>
    have hnone : a.op.claimed a.now s.store = none := claimed_eq_none (by simp [hop])
    obtain ⟨_, _, hrunning, htok⟩ := Claim.owns_iff.mp howns
    rw [hnone]
    cases countAttempt with
    | true =>
        rw [ledger_cons_other (claimsRow_eq_false (by simp [hop]))
      (by simp [refundsRow, hop])
          (by simp [retriesRow, hop])]
        exact hledger.of_unclaimed rfl (by simp [JobDomain.requeued])
    | false =>
      have hcons : ledger j d ((s, a) :: h) = (ledger j d h).filter fun c =>
          decide (some c.token ≠ (s.store.row j d).claimedBy) := by
        rw [ledger, hnone]
        simp [retriesRow, refundsRow, hop, hmem, howns]
      rw [hcons]
      exact hledger.refund hsane.tokens htok rfl (by simp [JobDomain.requeued])
  | finish hop howns | reap hop _ =>
    have hnone : a.op.claimed a.now s.store = none := claimed_eq_none (by simp [hop])
    rw [hnone, ledger_cons_other (claimsRow_eq_false (by simp [hop]))
      (by simp [refundsRow, hop])
      (by simp [retriesRow, hop])]
    exact hledger.of_unclaimed rfl rfl
  | beat hop hheld =>
    have hnone : a.op.claimed a.now s.store = none := claimed_eq_none (by simp [hop])
    rw [hnone, ledger_cons_other (claimsRow_eq_false (by simp [hop]))
      (by simp [refundsRow, hop])
      (by simp [retriesRow, hop])]
    exact ⟨hledger.handedOut, hledger.counted, hledger.length, hledger.latest⟩
  | release hop hheld =>
    have hnone : a.op.claimed a.now s.store = none := claimed_eq_none (by simp [hop])
    obtain ⟨hrunning, tok, htok, _⟩ := JobDomain.heldLike_iff.mp hheld
    have hcons : ledger j d ((s, a) :: h) = (ledger j d h).filter fun c =>
        decide (some c.token ≠ (s.store.row j d).claimedBy) := by
      rw [ledger, hnone]
      simp [retriesRow, refundsRow, hop, hmem, hheld]
    rw [hnone, hcons]
    have hcounted := hrow.counted hrunning
    refine hledger.refund hsane.tokens htok rfl ?_
    simp only [JobDomain.released]
    omega
  | retry hop hretryable =>
    have hnone : a.op.claimed a.now s.store = none := claimed_eq_none (by simp [hop])
    have hcons : ledger j d ((s, a) :: h) = [] := by
      rw [ledger, if_pos]
      simp [retriesRow, hop, requeueFailedRows, Store.row_mem_hits, hmem, hretryable]
    rw [hcons]
    exact ⟨nil_sublist _, trivial, by simp [JobDomain.requeuedFailed],
      by simp [JobDomain.requeuedFailed]⟩

theorem attempts_change {s : Store} (hmem : .row j d ∈ s.rows)
    (hrow : RowSane claims j d (s.row j d)) {r : JobDomain} (hchange : RowChange s a j d r) :
    r.attempts = if retriesRow j d s a then 0 else
      (s.row j d).attempts + (if claimsRow j d s a then 1 else 0) -
        (if refundsRow j d s a then 1 else 0) := by
  cases hchange with
  | same hclaim hrefund hretry _ => simp [hclaim, hrefund, hretry]
  | claim hop hclaimed hj hd =>
    have hclaim : claimsRow j d s a = true := by simp [claimsRow, hclaimed, hj, hd]
    simp [hclaim, retriesRow, refundsRow, hop, JobDomain.claimed]
  | @requeue _ _ countAttempt hop howns =>
    have hclaim : claimsRow j d s a = false := claimsRow_eq_false (by simp [hop])
    cases countAttempt <;>
      simp [hclaim, retriesRow, refundsRow, hop, hmem, howns, JobDomain.requeued]
  | finish hop _ =>
    have hclaim : claimsRow j d s a = false := claimsRow_eq_false (by simp [hop])
    simp [hclaim, retriesRow, refundsRow, hop, JobDomain.finished]
  | beat hop _ =>
    have hclaim : claimsRow j d s a = false := claimsRow_eq_false (by simp [hop])
    simp [hclaim, retriesRow, refundsRow, hop, JobDomain.beat]
  | reap hop _ =>
    have hclaim : claimsRow j d s a = false := claimsRow_eq_false (by simp [hop])
    simp [hclaim, retriesRow, refundsRow, hop, JobDomain.reaped]
  | release hop hheld =>
    have hclaim : claimsRow j d s a = false := claimsRow_eq_false (by simp [hop])
    have hcounted := hrow.counted (JobDomain.heldLike_iff.mp hheld).1
    simp only [hclaim, retriesRow, refundsRow, hop, hmem, hheld, JobDomain.released,
      decide_true, Bool.and_true, Bool.false_eq_true, if_false, if_true]
    omega
  | retry hop hretryable =>
    simp [retriesRow, hop, requeueFailedRows, Store.row_mem_hits, hmem, hretryable,
      JobDomain.requeuedFailed]

theorem since_cons (h : List (System × Action)) :
    ((claimsSince j d ((s, a) :: h) : ℤ) - refundsSince j d ((s, a) :: h)) =
      if retriesRow j d s.store a then 0 else
        ((claimsSince j d h : ℤ) - refundsSince j d h) +
          (if claimsRow j d s.store a then 1 else 0) -
          (if refundsRow j d s.store a then 1 else 0) := by
  unfold claimsSince refundsSince sinceRetry
  rw [takeWhile_cons]
  cases hretry : retriesRow j d s.store a with
  | true => simp
  | false =>
    simp only [Bool.not_false, if_true, countP_cons, Bool.false_eq_true, if_false]
    push_cast
    omega

/-! ## From the creation of the rows -/

/-- The rows as `create_job` inserts them, before anything is claimed. -/
structure Created (s : System) : Prop where
  claims : s.claims = []
  rows : ∀ j d, .row j d ∈ s.store.rows → (s.store.row j d).state ≠ .running ∧
    (s.store.row j d).claimedBy = none ∧ (s.store.row j d).attempts = 0

theorem Created.sane (h : Created s) : Sane s := by
  constructor
  case tokens => simp [h.claims]
  case rows =>
    intro j d hmem
    obtain ⟨hstate, hclaimed, hattempts⟩ := h.rows j d hmem
    exact rowSane_of_unclaimed hstate hclaimed hattempts.ge

abbrev CreatedRun := Transition.Run Created OpStep

structure Accounted (h : List (System × Action)) (s : System) (j : JobId) (d : Str) : Prop where
  row : RowSane s.claims j d (s.store.row j d)
  balance : (s.store.row j d).attempts = claimsSince j d h - refundsSince j d h
  ledger : Ledger s.claims (ledger j d h) (s.store.row j d)

theorem CreatedRun.accounted {h : List (System × Action)} (hrun : CreatedRun h s) :
    Sane s ∧ ∀ j d, .row j d ∈ s.store.rows → Accounted h s j d := by
  refine hrun.always_history (I := fun h s => Sane s ∧ ∀ j d, .row j d ∈ s.store.rows →
    Accounted h s j d) ?_ ?_
  · intro s hcreated
    refine ⟨hcreated.sane, ?_⟩
    intro j d hmem
    obtain ⟨_, hclaimed, hattempts⟩ := hcreated.rows j d hmem
    refine ⟨hcreated.sane.rows j d hmem, by simp [hattempts, claimsSince, refundsSince, sinceRetry],
      nil_sublist _, trivial, by simp [hattempts, Queue.ledger], by simp [hclaimed]⟩
  · intro h s a s' hi hstep
    obtain ⟨hsane, hrows⟩ := hi
    refine ⟨sane_step hsane hstep, ?_⟩
    obtain ⟨henabled, rfl⟩ := opStep_cases hstep
    intro j d hmem
    have hmem' := (row_mem_apply henabled.2.2).mp hmem
    have hchange := rowChange henabled hmem'
    have hbefore := hrows j d hmem'
    refine ⟨rowSane_change hbefore.row hchange, ?_, ledger_step hsane hmem' hbefore.ledger hchange⟩
    rw [attempts_change hmem' hbefore.row hchange, since_cons, hbefore.balance]

end

end Queue

end EmailExtractor
