import EmailExtractor.Worker.Handler

/-!
# A crash loop comes to an end

A handler starts `process_domain` only for a claim that carries at most `MAX_CLAIMS`
attempts. The claims of a row that still count carry different numbers, so between two
retries at most `MAX_CLAIMS` of them start it, even if every handler dies and its row is
reaped.
-/

namespace EmailExtractor

namespace Worker

open Queue

structure Fresh (w : World) : Prop where
  created : Created w.sys
  points : ∀ c, w.points c = .ready

/-- The move starts `process_domain` for the claim. -/
def startsFetch (c : Claim) (p : World × Tick) : Bool :=
  match p.2.move with
  | .step c' => decide (c' = c) && decide (p.1.points c = .cleared)
  | _ => false

/-- The handler has passed the check of the number of claims. -/
def Point.admitted : Point → Bool
  | .locking _ => true
  | .locked => true
  | .cleared => true
  | .fetching => true
  | _ => false

section

variable {cfg : Config} {w w' : World} {m : Tick} {c : Claim}

theorem look_admitted {s : Store} {time : Time} (h : (look cfg s time c).admitted = true) :
    c.attempts ≤ maxClaims cfg := by
  unfold look at h
  split at h
  · simp [Point.admitted] at h
  · split at h
    · simp [Point.admitted] at h
    · split at h
      · simp [Point.admitted] at h
      · rename_i hle
        exact not_lt.mp hle

theorem afterFetch_not_admitted (cfg : Config) (time : Time) (c : Claim) (o : Outcome) :
    (afterFetch cfg time c o).admitted = false := by
  cases o with
  | result r =>
    simp only [afterFetch]
    split <;> rfl
  | accountError keyChanged => cases keyChanged <;> rfl
  | error => rfl

theorem afterFinish_not_admitted {webhooks : List Webhook} :
    (afterFinish webhooks).admitted = false := by
  unfold afterFinish
  split <;> rfl

theorem admitted_change {p : Point} (hchange : PointChange cfg w m c p)
    (h : p.admitted = true) : (w.points c).admitted = true ∨ c.attempts ≤ maxClaims cfg := by
  cases hchange with
  | same _ => exact .inl h
  | step _ hnext =>
    cases hp : w.points c with
    | ready =>
      simp only [hp, Point.next, Option.some.injEq] at hnext
      exact .inr (look_admitted (hnext ▸ h))
    | locking began | locked | cleared | fetching => exact .inl rfl
    | unlocking next =>
      simp only [hp, Point.next, Option.some.injEq] at hnext
      subst hnext
      cases next <;> simp [AfterUnlock.point, Point.admitted] at h
    | recording r | finishing began r fromCache writeCache =>
      simp only [hp, Point.next, Option.some.injEq] at hnext
      simp [← hnext, afterFinish_not_admitted] at h
    | _ =>
      simp only [hp, Point.next, Option.some.injEq, reduceCtorEq] at hnext
      try (subst hnext; simp [Point.admitted] at h)
  | ends _ _ => simp [afterFetch_not_admitted] at h
  | raised _ _ => simp [afterRaise, Point.admitted] at h
  | die _ => simp [Point.admitted] at h

/-- In every run the admitted handlers, and the claims whose `process_domain` has been
started, are within the limit. -/
theorem started_within_limit {h : List (World × Tick)}
    (hrun : Transition.Run Fresh (WorldStep cfg) h w) :
    (∀ c, (w.points c).admitted = true → c.attempts ≤ maxClaims cfg) ∧
      ∀ c, h.any (startsFetch c) = true → c.attempts ≤ maxClaims cfg := by
  refine hrun.always_history
    (I := fun h w => (∀ c, (w.points c).admitted = true → c.attempts ≤ maxClaims cfg) ∧
      ∀ c, h.any (startsFetch c) = true → c.attempts ≤ maxClaims cfg) ?_ ?_
  · intro w hfresh
    refine ⟨fun c hc => ?_, fun c hc => by simp at hc⟩
    simp [hfresh.points c, Point.admitted] at hc
  · intro h w m w' hi hstep
    obtain ⟨hpoints, hstarted⟩ := hi
    obtain ⟨henabled, hnext, _⟩ := worldStep_cases hstep
    refine ⟨fun c hc => ?_, fun c hc => ?_⟩
    · rw [hnext] at hc
      rcases admitted_change (pointChange henabled c) hc with hbefore | hle
      · exact hpoints c hbefore
      · exact hle
    · rw [List.any_cons, Bool.or_eq_true] at hc
      rcases hc with hnow | hbefore
      · apply hpoints c
        unfold startsFetch at hnow
        split at hnow
        · simp only [Bool.and_eq_true, decide_eq_true_eq] at hnow
          rw [hnow.2]
          rfl
        · simp at hnow
      · exact hstarted c hbefore

end

/-- In every state of every run a row is running exactly if a token holds it, and then
it has a heartbeat and an attempt; no token holds two rows; the attempts of a row are
the claims since its creation or last retry less the refunded ones; and at most
`MAX_CLAIMS` of the claims that count have started `process_domain`. -/
theorem rows_well_formed_and_accounted (cfg : Config) (h : List (World × Tick)) (w : World)
    (hrun : Transition.Run Fresh (WorldStep cfg) h w) :
    (∀ j d, .row j d ∈ w.sys.store.rows →
      ((w.sys.store.row j d).state = .running ↔ (w.sys.store.row j d).claimedBy ≠ none) ∧
      ((w.sys.store.row j d).state = .running →
        (w.sys.store.row j d).heartbeatAt ≠ none ∧ 1 ≤ (w.sys.store.row j d).attempts) ∧
      (w.sys.store.row j d).attempts =
        claimsSince j d (queueHistory cfg h) - refundsSince j d (queueHistory cfg h) ∧
      0 ≤ (w.sys.store.row j d).attempts ∧
      ((ledger j d (queueHistory cfg h)).filter fun c => h.any (startsFetch c)).length ≤
        (maxClaims cfg).toNat) ∧
    ∀ j d j' d' tok, .row j d ∈ w.sys.store.rows → .row j' d' ∈ w.sys.store.rows →
      (w.sys.store.row j d).claimedBy = some tok →
      (w.sys.store.row j' d').claimedBy = some tok → j = j' ∧ d = d' := by
  have hqueue : CreatedRun (queueHistory cfg h) w.sys := queueRun (fun _ hw => hw.created) hrun
  obtain ⟨hsane, hrows⟩ := hqueue.accounted
  obtain ⟨_, hstarted⟩ := started_within_limit hrun
  refine ⟨?_, fun j d j' d' tok hmem hmem' => hsane.row_unique hmem hmem'⟩
  intro j d hmem
  have hrow := hrows j d hmem
  refine ⟨?_, ?_, hrow.balance, hrow.row.nonneg, ?_⟩
  · rw [hrow.row.running, Option.isSome_iff_ne_none]
  · intro hrunning
    exact ⟨Option.isSome_iff_ne_none.mp (hrow.row.beats hrunning), hrow.row.counted hrunning⟩
  · apply le_trans _ (hrow.ledger.counted.length_filter_le (maxClaims cfg))
    rw [← List.countP_eq_length_filter, ← List.countP_eq_length_filter]
    apply List.countP_mono_left
    intro c _ hc
    exact decide_eq_true (hstarted c hc)

namespace CrashLoop

def config : Config where
  maxDomainAttempts := 3
  retryPassDelayS := 600
  cacheDays := 90
  fetchBackend := "jina".toList
  validate := some

def store : Store :=
  .blank {.job 0, .row 0 "a".toList, .domain "a".toList} fun _ => { createdAt := 0 }

def world : World := ⟨⟨store, []⟩, fun _ => .ready, 0⟩

theorem world_fresh : Fresh world := by
  constructor
  case created =>
    refine ⟨rfl, ?_⟩
    intro j d _
    exact ⟨by simp [world, store, Store.row, Store.blank], rfl, rfl⟩
  case points => exact fun _ => rfl

def first : Claim := ⟨0, "a".toList, 1, "w|x".toList, none⟩

/-- The handler of the first claim dies while it fetches, the row is reaped, and it is
claimed again. -/
def schedule : List Tick :=
  [⟨0, .env ⟨0, .claim "w".toList [⟨0, "x".toList, "a".toList⟩]⟩⟩, ⟨1, .step first⟩,
    ⟨1, .step first⟩, ⟨2, .step first⟩, ⟨2, .step first⟩, ⟨3, .die first⟩,
    ⟨100, .env ⟨100, .reap⟩⟩, ⟨101, .env ⟨101, .claim "w".toList [⟨0, "y".toList, "a".toList⟩]⟩⟩]

end CrashLoop

/-- After a crash and a new claim the row counts two attempts, one of which started
`process_domain`. -/
theorem crashed_row_accounted : ∃ h w,
    Transition.Run Fresh (WorldStep CrashLoop.config) h w ∧
      (h.any (startsFetch CrashLoop.first) = true ∧
        (w.sys.store.row 0 "a".toList).attempts = 2) ∧
      (w.sys.store.row 0 "a".toList).heartbeatAt ≠ none ∧
      ((ledger 0 "a".toList (queueHistory CrashLoop.config h)).filter fun c =>
        h.any (startsFetch c)).length ≤ 5 := by
  obtain ⟨h, w, hrun, hmem, hrunning, hstarted, hattempts⟩ :=
    Transition.Run.exists_of_exec Fresh (worldStep CrashLoop.config) CrashLoop.world
      CrashLoop.world_fresh CrashLoop.schedule
      (fun p => .row 0 "a".toList ∈ p.2.sys.store.rows ∧
        (p.2.sys.store.row 0 "a".toList).state = .running ∧
        p.1.any (startsFetch CrashLoop.first) = true ∧
        (p.2.sys.store.row 0 "a".toList).attempts = 2)
      (by decide +kernel)
  have hrow := (rows_well_formed_and_accounted CrashLoop.config h w hrun).1 0 "a".toList hmem
  exact ⟨h, w, hrun, ⟨hstarted, hattempts⟩, (hrow.2.1 hrunning).1, hrow.2.2.2.2⟩

end Worker

end EmailExtractor
