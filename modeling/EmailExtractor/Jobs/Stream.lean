import EmailExtractor.Jobs.Create
import EmailExtractor.Library.Lru
import EmailExtractor.Queue.Attempts
import Mathlib.Data.List.Sort

/-!
# The download of a job

`stream_rows` of `app/jobs.py`. It joins the rows of the input with the rows of the queue
and keeps the results parsed last in a bounded cache. What it yields for an input row
depends on that row and on its row of the queue alone, and a row of the queue that is done
changes only when `requeue_failed` takes it back. So the download of a finished job stays
as it is, whatever happens to the shared cache of domains.

The record for an invalid input row is built anew by every download, with the time of the
download as its `processed_at`. The `processed_at` of a stored result is stored with it and
is left out, as it is everywhere.
-/

namespace EmailExtractor

namespace Jobs

open Queue

/-! ## `stream_rows` -/

structure StreamRow where
  rawRow : Dict Str Str
  result : Option DomainResult
  /-- The `processed_at` of a record built for the download. -/
  processedAt : Option Time
  domain : Option Str
  retrying : Bool
  deriving DecidableEq

def joined (s : Store) (j : JobId) (domain : Option Str) : Option JobDomain :=
  domain.bind fun d => if .row j d ∈ s.rows then some (s.row j d) else none

/-- `ORDER BY row_index`; no two rows of a job have the same. -/
def byIndex (items : List JobItem) : List JobItem :=
  items.insertionSort fun a b => a.rowIndex ≤ b.rowIndex

def doneResult (r : JobDomain) : Option DomainResult := if r.state = .done then r.result else none

def parsedCache : ℕ := 2000

def invalidResult (item : JobItem) : DomainResult where
  domain :=
    if item.domain.getD [] ≠ [] then item.domain.getD []
    else if item.inputValue.take 255 ≠ [] then item.inputValue.take 255
    else ['-']
  status := .invalidInput
  errorReason := item.reason

def yieldRow (clock : Time) (item : JobItem) (row : Option JobDomain)
    (result : Option DomainResult) : StreamRow :=
  let built := result = none ∧ item.status = some .invalidInput
  let result := if built then some (invalidResult item) else result
  { rawRow := item.rawRow.getD []
    result := result
    processedAt := if built then some clock else none
    domain := item.domain
    retrying := result.isNone && row.any fun r => r.state = .queued && 0 < r.attempts }

section

variable (validate : DomainResult → Option DomainResult)

/-- The loop over the joined rows; `validate` is `DomainResult.model_validate`, and `clock`
gives the time at each row. -/
def streamLoop (clock : ℕ → Time) (s : Store) (j : JobId)
    (parsed : Dict (Option Str) (Option DomainResult)) : List JobItem → List StreamRow
  | [] => []
  | item :: items =>
    let row := joined s j item.domain
    match row.bind doneResult with
    | none =>
      yieldRow (clock item.rowIndex) item row none :: streamLoop clock s j parsed items
    | some raw =>
      let (result, parsed) := Lru.get parsedCache item.domain (validate raw) parsed
      yieldRow (clock item.rowIndex) item row result :: streamLoop clock s j parsed items

def streamRows (clock : ℕ → Time) (x : Api) (j : JobId) : List StreamRow :=
  streamLoop validate clock x.sys.store j [] (byIndex (x.items j))

/-- What is yielded for an input row, without the cache of parsed results. -/
def streamRow (clock : ℕ → Time) (s : Store) (j : JobId) (item : JobItem) : StreamRow :=
  let row := joined s j item.domain
  yieldRow (clock item.rowIndex) item row ((row.bind doneResult).bind validate)

variable {validate} {clock : ℕ → Time} {s : Store} {j : JobId}

theorem streamLoop_eq {parsed : Dict (Option Str) (Option DomainResult)} (items : List JobItem)
    (h : Lru.Caches (fun domain => ((joined s j domain).bind doneResult).bind validate) parsed) :
    streamLoop validate clock s j parsed items =
      items.map (streamRow validate clock s j) := by
  induction items generalizing parsed with
  | nil => rfl
  | cons item items ih =>
    rw [streamLoop, List.map_cons, streamRow]
    cases hraw : (joined s j item.domain).bind doneResult with
    | none => simp [ih h]
    | some raw =>
      have hget := h.get parsedCache item.domain
      simp only [hraw, Option.bind_some] at hget
      simp [hget.1, ih hget.2]

theorem streamRows_eq {x : Api} : streamRows validate clock x j =
    (byIndex (x.items j)).map (streamRow validate clock x.sys.store j) :=
  streamLoop_eq _ Lru.caches_nil

end

/-! ## One move -/

def retriesJob (j : JobId) (s : Store) (m : ApiMove) : Bool :=
  (m.action s).any fun a =>
    match a.op with
    | .requeueFailed j' => decide (j' = j)
    | _ => false

def recordsRow (j : JobId) (d : Str) (s : Store) (m : ApiMove) : Bool :=
  (m.action s).any (records j d s)

/-- What a move does to a job that exists: the rows of its input stay, and those of the
queue change as an operation of the queue changes them. -/
structure JobFrame (x : Api) (m : ApiMove) (x' : Api) (j : JobId) : Prop where
  job : .job j ∈ x'.sys.store.rows
  items : x'.items j = x.items j
  mem : ∀ d, .row j d ∈ x'.sys.store.rows ↔ .row j d ∈ x.sys.store.rows
  row : ∀ d, .row j d ∈ x.sys.store.rows →
    (m.action x.sys.store = none ∧ x'.sys.store.row j d = x.sys.store.row j d) ∨
      ∃ a ∈ m.action x.sys.store, RowChange x.sys.store a j d (x'.sys.store.row j d)

section

variable {limit : ℤ} {x x' x₁ : Api} {m : ApiMove} {j : JobId} {d : Str} {a : Action}

theorem JobFrame.of_sys_eq (hjob : .job j ∈ x.sys.store.rows)
    (hnone : m.action x.sys.store = none) (hsys : x'.sys = x.sys) (hitems : x'.items = x.items) :
    JobFrame x m x' j where
  job := by rwa [hsys]
  items := by rw [hitems]
  mem := by simp [hsys]
  row := fun d _ => .inl ⟨hnone, by rw [hsys]⟩

theorem apiStep_frame (hstep : ApiStep limit x m x') (hjob : .job j ∈ x.sys.store.rows) :
    JobFrame x m x' j := by
  cases apiChange hstep with
  | unchanged hnone => exact .of_sys_eq hjob hnone rfl rfl
  | posting _ | rollback => exact .of_sys_eq hjob rfl rfl rfl
  | @create _ _ _ j' _ hfresh _ =>
    have hne : j ≠ j' := fun h => hfresh (h ▸ hjob)
    constructor
    case job => exact job_mem_createJob.2 (.inr hjob)
    case items => simp [Api.create, hne]
    case mem => exact fun d => (row_createJob hne).2
    case row => exact fun d _ => .inl ⟨rfl, (row_createJob hne).1⟩
  | queue ha hsys =>
    obtain ⟨henabled, rfl⟩ := opStep_cases hsys
    constructor
    case job => exact (mem_rows_apply henabled.2.2).2 (.inl hjob)
    case items => rfl
    case mem => exact fun d => row_mem_apply henabled.2.2
    case row => exact fun d hmem => .inr ⟨_, ha, rowChange henabled hmem⟩

theorem retriesJob_iff {s : Store} :
    retriesJob j s m = true ↔ ∃ a, m.action s = some a ∧ a.op = .requeueFailed j := by
  cases haction : m.action s with
  | none => simp [retriesJob, haction]
  | some a =>
    obtain ⟨now, op⟩ := a
    cases op <;> simp [retriesJob, haction]

/-- A retry of the job takes back the rows worth another go, and no others. -/
theorem JobFrame.retried (h : JobFrame x m x' j) (hretries : retriesJob j x.sys.store m = true)
    (hmem : .row j d ∈ x.sys.store.rows) :
    ∃ now, x'.sys.store.row j d =
      if (x.sys.store.row j d).retryable then (x.sys.store.row j d).requeuedFailed now
      else x.sys.store.row j d := by
  obtain ⟨a, ha, hop⟩ := retriesJob_iff.1 hretries
  rcases h.row d hmem with ⟨hnone, _⟩ | ⟨a', ha', hchange⟩
  · simp [ha] at hnone
  · rw [ha, Option.mem_def, Option.some.injEq] at ha'
    subst ha'
    exact ⟨a.now, hchange.of_requeueFailed hop hmem⟩

/-! ## Runs -/

structure SameOn (D : Str → Prop) (j : JobId) (x₁ x : Api) : Prop where
  job : .job j ∈ x.sys.store.rows
  items : x.items j = x₁.items j
  mem : ∀ d, .row j d ∈ x.sys.store.rows ↔ .row j d ∈ x₁.sys.store.rows
  row : ∀ d, D d → .row j d ∈ x₁.sys.store.rows → x.sys.store.row j d = x₁.sys.store.row j d

theorem SameOn.step {D : Str → Prop} (h : SameOn D j x₁ x)
    (hdone : ∀ d, D d → .row j d ∈ x₁.sys.store.rows →
      (x₁.sys.store.row j d).state = .done ∧
        (retriesJob j x.sys.store m = false ∨ (x₁.sys.store.row j d).retryable = false))
    (hstep : ApiStep limit x m x') : SameOn D j x₁ x' := by
  have hframe := apiStep_frame hstep h.job
  refine ⟨hframe.job, hframe.items.trans h.items, fun d => (hframe.mem d).trans (h.mem d), ?_⟩
  intro d hd hmem
  obtain ⟨hstate, hkeep⟩ := hdone d hd hmem
  have hsame := h.row d hd hmem
  rw [← hsame] at hstate hkeep
  rw [← hsame]
  rcases hframe.row d ((h.mem d).2 hmem) with ⟨_, hrow⟩ | ⟨a, ha, hchange⟩
  · exact hrow
  · rcases hchange.of_done hstate with hrow | ⟨hop, hretryable⟩
    · exact hrow
    · rcases hkeep with hno | hno
      · rw [retriesJob_iff.2 ⟨a, ha, hop⟩] at hno
        cases hno
      · simp [hretryable] at hno

theorem SameOn.run {D : Str → Prop} {h : List (Api × ApiMove)} (hjob : .job j ∈ x₁.sys.store.rows)
    (hdone : ∀ d, D d → .row j d ∈ x₁.sys.store.rows →
      (x₁.sys.store.row j d).state = .done ∧
        ((∀ p ∈ h, retriesJob j p.1.sys.store p.2 = false) ∨
          (x₁.sys.store.row j d).retryable = false))
    (hrun : Transition.Run (fun x => x = x₁) (ApiStep limit) h x) : SameOn D j x₁ x := by
  have hok : Transition.Guarded (fun x m => ∀ d, D d → .row j d ∈ x₁.sys.store.rows →
      (x₁.sys.store.row j d).state = .done ∧
        (retriesJob j x.sys.store m = false ∨ (x₁.sys.store.row j d).retryable = false)) h := by
    intro p hp d hd hmem
    obtain ⟨hstate, hkeep⟩ := hdone d hd hmem
    exact ⟨hstate, hkeep.imp_left fun hno => hno p hp⟩
  refine hrun.invariant (I := SameOn D j x₁) ?_ (fun x m x' hx hok hs => hx.step hok hs) hok
  rintro x rfl
  exact ⟨hjob, rfl, fun _ => Iff.rfl, fun _ _ _ => rfl⟩

structure Unfinished (j : JobId) (d : Str) (x₁ x : Api) : Prop where
  job : .job j ∈ x.sys.store.rows
  items : x.items j = x₁.items j
  mem : .row j d ∈ x.sys.store.rows
  state : (x.sys.store.row j d).state ≠ .done

theorem Unfinished.step (h : Unfinished j d x₁ x) (hrec : recordsRow j d x.sys.store m = false)
    (hstep : ApiStep limit x m x') : Unfinished j d x₁ x' := by
  have hframe := apiStep_frame hstep h.job
  refine ⟨hframe.job, hframe.items.trans h.items, (hframe.mem d).2 h.mem, ?_⟩
  rcases hframe.row d h.mem with ⟨_, hrow⟩ | ⟨a, ha, hchange⟩
  · rw [hrow]
    exact h.state
  · rw [Option.mem_def] at ha
    simp only [recordsRow, ha, Option.any_some] at hrec
    exact hchange.of_not_done h.mem hrec h.state

theorem Unfinished.run {h : List (Api × ApiMove)} (hx : Unfinished j d x₁ x₁)
    (hrec : ∀ p ∈ h, recordsRow j d p.1.sys.store p.2 = false)
    (hrun : Transition.Run (fun x => x = x₁) (ApiStep limit) h x) : Unfinished j d x₁ x := by
  have hok : Transition.Guarded (fun x m => recordsRow j d x.sys.store m = false) h := hrec
  refine hrun.invariant (I := Unfinished j d x₁) ?_ (fun x m x' hx hok hs => hx.step hok hs) hok
  rintro x rfl
  exact hx

end

/-! ## What the download shows -/

theorem done_of_not_hasLive {s : Store} {j : JobId} {d : Str}
    (hdead : hasLive s.rows s.val j = false) (hmem : .row j d ∈ s.rows) :
    (s.row j d).state = .done := by
  have hnot : ¬ JobDomain.live (s.row j d) = true := by
    intro hlive
    rw [hasLive_eq_true.2 ⟨d, hmem, hlive⟩] at hdead
    cases hdead
  cases hstate : (s.row j d).state with
  | done => rfl
  | _ => simp [JobDomain.live, hstate] at hnot

def StreamRow.untimed (r : StreamRow) : StreamRow := { r with processedAt := none }

/-- The entries are the same, or are records built for their download that differ in
`processed_at` at most. -/
def SameEntry (r r' : StreamRow) : Prop :=
  r = r' ∨ r.processedAt.isSome ∧ r'.processedAt.isSome ∧ r.untimed = r'.untimed

def SameAt (i : ℕ) (l l' : List StreamRow) : Prop := Option.Rel SameEntry l[i]? l'[i]?

def pendingResult (item : JobItem) : Option DomainResult :=
  if item.status = some .invalidInput then some (invalidResult item) else none

section

variable {validate : DomainResult → Option DomainResult} {clock clock' : ℕ → Time} {x x' : Api}
  {j : JobId} {i : ℕ} {item : JobItem}

theorem sameEntry_yieldRow (t t' : Time) (item : JobItem) (row : Option JobDomain)
    (result : Option DomainResult) :
    SameEntry (yieldRow t item row result) (yieldRow t' item row result) := by
  by_cases hbuilt : result = none ∧ item.status = some .invalidInput
  · exact .inr (by simp [yieldRow, StreamRow.untimed, hbuilt])
  · exact .inl (by simp [yieldRow, hbuilt])

theorem sameAt_of_joined (hitems : x'.items j = x.items j)
    (hjoined : ∀ item, (byIndex (x.items j))[i]? = some item →
      joined x'.sys.store j item.domain = joined x.sys.store j item.domain) :
    SameAt i (streamRows validate clock' x' j) (streamRows validate clock x j) := by
  unfold SameAt
  rw [streamRows_eq, streamRows_eq, hitems, List.getElem?_map, List.getElem?_map]
  cases hitem : (byIndex (x.items j))[i]? with
  | none => exact .none
  | some item =>
    refine .some ?_
    rw [streamRow, streamRow, hjoined item hitem]
    exact sameEntry_yieldRow _ _ _ _ _

theorem sameAt_of_item (hitems : x'.items j = x.items j)
    (hitem : (byIndex (x.items j))[i]? = some item)
    (hjoined : joined x'.sys.store j item.domain = joined x.sys.store j item.domain) :
    SameAt i (streamRows validate clock' x' j) (streamRows validate clock x j) := by
  refine sameAt_of_joined hitems fun item' hitem' => ?_
  rw [hitem, Option.some.injEq] at hitem'
  exact hitem' ▸ hjoined

theorem joined_congr {s s' : Store} {domain : Option Str}
    (hmem : ∀ d ∈ domain, (.row j d ∈ s'.rows ↔ .row j d ∈ s.rows))
    (hrow : ∀ d ∈ domain, .row j d ∈ s.rows → s'.row j d = s.row j d) :
    joined s' j domain = joined s j domain := by
  cases domain with
  | none => rfl
  | some d =>
    simp only [joined, Option.bind_some, hmem d rfl]
    split
    · rename_i h
      rw [hrow d rfl h]
    · rfl

theorem joined_eq_some {s : Store} {domain : Option Str} {r : JobDomain} :
    joined s j domain = some r ↔ ∃ d ∈ domain, .row j d ∈ s.rows ∧ s.row j d = r := by
  cases domain with
  | none | some d => simp [joined]

theorem result_of_not_done {s : Store} {r : JobDomain}
    (hjoined : joined s j item.domain = some r) (hopen : r.state ≠ .done) :
    (streamRow validate clock s j item).result = pendingResult item := by
  simp [streamRow, hjoined, doneResult, hopen, yieldRow, pendingResult]

end

structure DownloadKept (limit : ℤ) (validate : DomainResult → Option DomainResult) (x₁ : Api)
    (j : JobId) : Prop where
  /-- A finished download stays the same until the job is retried. -/
  finished : hasLive x₁.sys.store.rows x₁.sys.store.val j = false →
    ∀ h x, Transition.Run (fun x => x = x₁) (ApiStep limit) h x →
      (∀ p ∈ h, retriesJob j p.1.sys.store p.2 = false) →
      ∀ clock clock' i,
        SameAt i (streamRows validate clock' x j) (streamRows validate clock x₁ j)
  /-- A retry changes the entries of the rows worth another go only. -/
  retry : ∀ m x, ApiStep limit x₁ m x → retriesJob j x₁.sys.store m = true →
    ∀ i item, (byIndex (x₁.items j))[i]? = some item →
      (∀ r ∈ joined x₁.sys.store j item.domain, r.retryable = false) →
      ∀ clock clock', SameAt i (streamRows validate clock' x j) (streamRows validate clock x₁ j)
  /-- These show no result of the row until its next recorded `finish`. -/
  pending : ∀ m x, ApiStep limit x₁ m x → retriesJob j x₁.sys.store m = true →
    ∀ (i : ℕ) item d, (byIndex (x₁.items j))[i]? = some item → item.domain = some d →
      .row j d ∈ x₁.sys.store.rows → (x₁.sys.store.row j d).retryable = true →
      ∀ h x₂, Transition.Run (fun y => y = x) (ApiStep limit) h x₂ →
        (∀ p ∈ h, recordsRow j d p.1.sys.store p.2 = false) →
        ∀ clock, (streamRows validate clock x₂ j)[i]?.map StreamRow.result =
          some (pendingResult item)
  /-- The other entries of done rows never change, however often the job is retried. -/
  settled : ∀ i item, (byIndex (x₁.items j))[i]? = some item →
    (∀ r ∈ joined x₁.sys.store j item.domain, r.state = .done ∧ r.retryable = false) →
    ∀ h x, Transition.Run (fun x => x = x₁) (ApiStep limit) h x →
      ∀ clock clock', SameAt i (streamRows validate clock' x j) (streamRows validate clock x₁ j)

/-- A finished download never changes by itself, and a retry changes the rows worth another
go only, until their next recorded `finish`. -/
theorem finished_download_kept (limit : ℤ) (validate : DomainResult → Option DomainResult)
    (x₁ : Api) (j : JobId) (hjob : .job j ∈ x₁.sys.store.rows) :
    DownloadKept limit validate x₁ j := by
  constructor
  case finished =>
    intro hdead h x hrun hno clock clock' i
    have hsame : SameOn (fun _ => True) j x₁ x := by
      exact SameOn.run hjob (fun d _ hmem => ⟨done_of_not_hasLive hdead hmem, .inl hno⟩) hrun
    refine sameAt_of_joined hsame.items fun item _ => ?_
    exact joined_congr (fun d _ => hsame.mem d) fun d _ hmem => hsame.row d trivial hmem
  case retry =>
    intro m x hstep hretries i item hitem hkeep clock clock'
    have hframe := apiStep_frame hstep hjob
    refine sameAt_of_item hframe.items hitem ?_
    refine joined_congr (fun d _ => hframe.mem d) fun d hd hmem => ?_
    obtain ⟨_, hrow⟩ := hframe.retried hretries hmem
    rw [hrow, hkeep _ (joined_eq_some.2 ⟨d, hd, hmem, rfl⟩), if_neg Bool.false_ne_true]
  case pending =>
    intro m x hstep hretries i item d hitem hd hmem hretryable h x₂ hrun hrec clock
    have hframe := apiStep_frame hstep hjob
    have hstart : Unfinished j d x x := by
      refine ⟨hframe.job, rfl, (hframe.mem d).2 hmem, ?_⟩
      obtain ⟨_, hrow⟩ := hframe.retried hretries hmem
      rw [hrow, if_pos hretryable]
      simp [JobDomain.requeuedFailed]
    have hend := hstart.run hrec hrun
    have hjoined : joined x₂.sys.store j item.domain = some (x₂.sys.store.row j d) :=
      joined_eq_some.2 ⟨d, hd, hend.mem, rfl⟩
    rw [streamRows_eq, hend.items, hframe.items, List.getElem?_map, hitem, Option.map_some,
      Option.map_some, result_of_not_done hjoined hend.state]
  case settled =>
    intro i item hitem hdone h x hrun clock clock'
    have hsame : SameOn (fun d => item.domain = some d) j x₁ x := by
      refine SameOn.run hjob (fun d hd hmem => ?_) hrun
      have hr := hdone _ (joined_eq_some.2 ⟨d, hd, hmem, rfl⟩)
      exact ⟨hr.1, .inr hr.2⟩
    refine sameAt_of_item hsame.items hitem ?_
    exact joined_congr (fun d _ => hsame.mem d) fun d hd hmem => hsame.row d hd hmem

namespace SharedDomain

/-- What the first job found on the domain they share. -/
def older : DomainResult := { domain := "a".toList, status := .found }

def newer : DomainResult := { domain := "a".toList, status := .noContactInfo }

/-- Job 0 is done, with a result, an invalid input row and a failed row. Job 1 has one of
its domains to do. -/
def start : Api where
  sys :=
    { store :=
        { rows := {.job 0, .job 1, .row 0 "a".toList, .row 0 "b".toList, .row 1 "a".toList,
            .domain "a".toList, .domain "b".toList}
          val
            | .job j => ({ createdAt := 0, status := if j = 0 then .done else .queued } : Job)
            | .row j d =>
              if j = 1 then ({ seq := 0, availableAt := 0 } : JobDomain)
              else if d = "a".toList then
                { seq := 0, availableAt := 0, state := .done, status := some .found,
                  result := some older }
              else
                { seq := 1, availableAt := 0, state := .done, status := some .fetchFailed,
                  result := some
                    { domain := d, status := .fetchFailed,
                      errorReason := some "homepage".toList } }
            | .domain _ => ({ updatedAt := 0 } : DomainRow) }
      claims := [] }
  keys _ := none
  fingerprints _ := none
  items j :=
    if j = 0 then
      [⟨0, "a".toList, some "a".toList, none, none, none, none⟩,
        ⟨1, [], none, some .invalidInput, some "empty".toList, none, none⟩,
        ⟨2, "b".toList, some "b".toList, none, none, none, none⟩]
    else [⟨0, "a".toList, some "a".toList, none, none, none, none⟩]
  posting _ := none

def refetch : List ApiMove :=
  [.queue ⟨1, .claim "w".toList [⟨1, "x".toList, "a".toList⟩]⟩,
    .queue ⟨2, .finish ⟨1, "a".toList, 1, "w|x".toList, none⟩ newer false true⟩]

end SharedDomain

/-- Another job writes a new result to the shared cache, and the download stays. -/
theorem shared_cache_moves_on :
    .job 0 ∈ SharedDomain.start.sys.store.rows ∧
      ∃ h x, Transition.Run (fun x => x = SharedDomain.start) (ApiStep 3) h x ∧
        (x.sys.store.domain "a".toList).result = some SharedDomain.newer ∧
        ∀ i, SameAt i (streamRows some (fun _ => 3) x 0)
          (streamRows some (fun _ => 0) SharedDomain.start 0) := by
  obtain ⟨h, x, hrun, hno, hcache⟩ := Transition.Run.exists_of_exec
    (fun x => x = SharedDomain.start) (apiStep 3) SharedDomain.start rfl SharedDomain.refetch
    (fun p => (∀ q ∈ p.1, retriesJob 0 q.1.sys.store q.2 = false) ∧
      (p.2.sys.store.domain "a".toList).result = some SharedDomain.newer)
    (by decide +kernel)
  have hjob : .job 0 ∈ SharedDomain.start.sys.store.rows := by decide
  refine ⟨hjob, h, x, hrun, hcache, ?_⟩
  exact (finished_download_kept 3 some SharedDomain.start 0 hjob).finished (by decide) h x hrun hno
    (fun _ => 0) (fun _ => 3)

/-- Two downloads of the same finished job, with nothing happening in between, give an
invalid input row two times of processing. -/
theorem invalid_row_processed_anew :
    hasLive SharedDomain.start.sys.store.rows SharedDomain.start.sys.store.val 0 = false ∧
      Transition.Run (fun x => x = SharedDomain.start) (ApiStep 3) [] SharedDomain.start ∧
      streamRows some (fun _ => 1) SharedDomain.start 0 ≠
        streamRows some (fun _ => 0) SharedDomain.start 0 :=
  ⟨by decide, .start rfl, by decide +kernel⟩

end Jobs

end EmailExtractor
