import EmailExtractor.Jobs.Output
import EmailExtractor.Jobs.Stream
import EmailExtractor.Library.Chunks

/-!
# One output row for each input row

`create_job` inserts the items, the domains and the rows of the queue in chunks, and
`stream_rows` joins the items with the rows of the queue again. Whatever happens to the
queue in between, a download has one entry for each item, in the order of the input, with
the cells of the item and with what the queue has for its domain.
-/

namespace EmailExtractor

namespace Jobs

open Queue Ingest Chunks List
open Function (update update_self)

/-! ## `create_job` in chunks -/

def itemChunk : ℕ := 2000

def domainChunk : ℕ := 1000

def insertItems (items : List PreparedItem) : List JobItem :=
  (chunks itemChunk items).foldl (fun rows chunk => rows ++ chunk.map PreparedItem.row) []

def insertDomainChunks (s : Store) (now : Time) (domains : List Str) : Store :=
  (chunks domainChunk domains).foldl (fun s chunk => insertDomains s now chunk) s

/-- The inserts into `job_domains`, with `seq` counted over the chunks. -/
def insertRowChunks (s : Store) (now : Time) (j : JobId) (domains : List Str) : Store :=
  (foldlCounting (fun s rows => insertRows s now j rows) (s, 0) (chunks domainChunk domains)).1

/-- `create_job` in the order of its statements. -/
def createInChunks (s : Store) (now clock : Time) (j : JobId) (a : NewJob) : Store :=
  let domains := uniqueDomains a.items
  let job : Job :=
    { createdAt := now, webhookUrl := a.webhookUrl, fresh := a.fresh, ownerId := a.ownerId }
  let s := insertJob s j job
  if domains ≠ [] then insertRowChunks (insertDomainChunks s now domains) now j domains
  else insertJob s j { job with status := .done, finishedAt := some clock }

def Api.createInChunks (x : Api) (now clock : Time) (j : JobId) (a : NewJob) : Api where
  sys := { x.sys with store := Jobs.createInChunks x.sys.store now clock j a }
  keys := update x.keys j a.idempotencyKey
  fingerprints := update x.fingerprints j a.idempotencyFingerprint
  items := update x.items j (insertItems a.items)
  posting := update x.posting a.ownerId none

section

variable {s : Store} {now clock : Time} {j : JobId} {a : NewJob}

theorem insertItems_eq (items : List PreparedItem) :
    insertItems items = items.map PreparedItem.row := by
  have hflatten : ∀ (ls : List (List PreparedItem)) (rows : List JobItem),
      ls.foldl (fun rows chunk => rows ++ chunk.map PreparedItem.row) rows =
        rows ++ ls.flatten.map PreparedItem.row := by
    intro ls
    induction ls with
    | nil => simp
    | cons chunk ls ih => simp [ih]
  rw [insertItems, hflatten, flatten_chunks (by decide), nil_append]

theorem insertDomainChunks_eq (domains : List Str) :
    insertDomainChunks s now domains = insertDomains s now domains :=
  foldl_chunks (by decide) _ _ _

theorem insertRowChunks_eq (domains : List Str) :
    insertRowChunks s now j domains = insertRows s now j domains.zipIdx := by
  unfold insertRowChunks
  rw [foldlCounting_eq (fun _ => rfl) (fun _ _ _ => foldl_append), flatten_chunks (by decide)]

theorem insertJob_insertJob (job job' : Job) :
    insertJob (insertJob s j job) j job' = insertJob s j job' := by
  simp [insertJob]

theorem createInChunks_eq : createInChunks s now clock j a = createJob s now clock j a := by
  unfold createInChunks createJob
  dsimp only
  by_cases hdomains : uniqueDomains a.items = []
  · rw [if_neg (not_not.mpr hdomains), insertJob_insertJob, NewJob.job, if_pos hdomains, hdomains]
    rfl
  · rw [if_pos hdomains, insertRowChunks_eq, insertDomainChunks_eq, NewJob.job, if_neg hdomains]

theorem Api.createInChunks_eq (x : Api) :
    x.createInChunks now clock j a = x.create now clock j a := by
  unfold Api.createInChunks Api.create
  rw [Jobs.createInChunks_eq, insertItems_eq]

end

/-! ## The rows of the job along a run -/

/-- A row of the queue keeps its place, and is done with a result. -/
structure RowAt (i : ℕ) (r : JobDomain) : Prop where
  seq : r.seq = i
  result : r.state = .done → r.result.isSome

theorem RowAt.change {s : Store} {a : Action} {j : JobId} {d : Str} {r : JobDomain} {i : ℕ}
    (h : RowAt i (s.row j d)) (hchange : RowChange s a j d r) : RowAt i r := by
  refine ⟨?_, fun hdone => ?_⟩
  · cases hchange with
    | _ => exact h.seq
  · cases hchange with
    | same | beat => exact h.result hdone
    | finish => rfl
    | claim => simp [JobDomain.claimed] at hdone
    | requeue => simp [JobDomain.requeued] at hdone
    | reap => simp [JobDomain.reaped] at hdone
    | release => simp [JobDomain.released] at hdone
    | retry => simp [JobDomain.requeuedFailed] at hdone

/-- The job has its items, and a row of the queue for each of its domains. -/
structure Holds (items : List PreparedItem) (j : JobId) (x : Api) : Prop where
  job : .job j ∈ x.sys.store.rows
  input : x.items j = items.map PreparedItem.row
  mem : ∀ d, .row j d ∈ x.sys.store.rows ↔ d ∈ uniqueDomains items
  row : ∀ (i : ℕ) d, (uniqueDomains items)[i]? = some d → RowAt i (x.sys.store.row j d)

section

variable {limit : ℤ} {items : List PreparedItem} {j : JobId} {x x' : Api} {m : ApiMove}

theorem holds_create {now clock : Time} {a : NewJob} (hnew : ∀ d, .row j d ∉ x.sys.store.rows) :
    Holds a.items j (x.create now clock j a) where
  job := job_mem_createJob.mpr (.inl rfl)
  input := update_self ..
  mem := by
    intro d
    change .row j d ∈ (createJob x.sys.store now clock j a).rows ↔ _
    rw [row_mem_createJob_self]
    exact or_iff_left (hnew d)
  row := by
    intro i d hd
    change RowAt i ((createJob x.sys.store now clock j a).row j d)
    rw [row_createJob_self hd]
    exact ⟨rfl, by simp⟩

theorem Holds.step (h : Holds items j x) (hstep : ApiStep limit x m x') : Holds items j x' := by
  have hframe := apiStep_frame hstep h.job
  refine ⟨hframe.job, hframe.items.trans h.input, fun d => (hframe.mem d).trans (h.mem d), ?_⟩
  intro i d hd
  have hmem := (h.mem d).mpr (mem_of_getElem? hd)
  rcases hframe.row d hmem with ⟨-, hrow⟩ | ⟨_, -, hchange⟩
  · rw [hrow]
    exact h.row i d hd
  · exact (h.row i d hd).change hchange

theorem Holds.run {x₁ : Api} {h : List (Api × ApiMove)} (hx : Holds items j x₁)
    (hrun : Transition.Run (fun x => x = x₁) (ApiStep limit) h x) : Holds items j x := by
  refine hrun.always ?_ fun _ _ _ hx hstep => hx.step hstep
  rintro x rfl
  exact hx

end

/-! ## What the download shows -/

section

variable {items : List PreparedItem}

section

variable (h : Prepared items)

include h

theorem Prepared.byIndex : byIndex (items.map PreparedItem.row) = items.map PreparedItem.row := by
  apply List.Pairwise.insertionSort_eq
  rw [pairwise_map, pairwise_iff_getElem]
  intro i k hi hk hlt
  change items[i].rowIndex ≤ items[k].rowIndex
  rw [h.rowIndex i _ (List.getElem?_eq_getElem hi), h.rowIndex k _ (List.getElem?_eq_getElem hk)]
  exact Nat.le_of_lt hlt

theorem Prepared.namedDomains : namedDomains items = items.filterMap PreparedItem.domain := by
  unfold Jobs.namedDomains
  apply filterMap_congr
  intro it hit
  rcases h.domain it hit with ⟨d, hd, hne, -⟩ | ⟨hnone, -⟩
  · rw [hd, Option.filter_some, if_pos (by simpa using hne)]
  · rw [hnone, Option.filter_none]

theorem Prepared.uniqueDomains :
    uniqueDomains items = (items.filterMap PreparedItem.domain).eraseDups := by
  rw [uniqueDomains_eq, h.namedDomains]

theorem Prepared.mem_uniqueDomains {d : Str} :
    d ∈ Jobs.uniqueDomains items ↔ ∃ it ∈ items, it.domain = some d := by
  rw [h.uniqueDomains, mem_eraseDups, mem_filterMap]

theorem Prepared.uniqueDomains_eq_nil :
    Jobs.uniqueDomains items = [] ↔ ∀ it ∈ items, it.domain = none := by
  rw [eq_nil_iff_forall_not_mem]
  simp only [h.mem_uniqueDomains, not_exists, not_and, Option.eq_none_iff_forall_ne_some]
  exact ⟨fun hno it hit d => hno d it hit, fun hno d it hit => hno it hit d⟩

end

end

/-- The entry of a download for an item: with a domain, what the row of the queue has if it
is done, and pending if not; without one, the reason why the input is invalid. -/
structure Shows (validate : DomainResult → Option DomainResult) (s : Store) (j : JobId)
    (it : PreparedItem) (entry : StreamRow) : Prop where
  rawRow : entry.rawRow = it.rawRow
  domain : entry.domain = it.domain
  done : ∀ d, it.domain = some d → (s.row j d).state = .done →
    ∃ r, (s.row j d).result = some r ∧ entry.result = validate r
  pending : ∀ d, it.domain = some d → (s.row j d).state ≠ .done → entry.result = none ∧
    ∀ format, Dict.getD (resultCells format entry.result entry.domain entry.retrying)
      "status".toList [] = "pending".toList
  invalid : it.domain = none → it.status = some .invalidInput ∧
    ∃ r, entry.result = some r ∧ r.status = .invalidInput ∧ r.errorReason = it.reason

section

variable {validate : DomainResult → Option DomainResult} {items : List PreparedItem} {j : JobId}
  {x : Api} {it : PreparedItem}

theorem Holds.shows (h : Holds items j x) (hprepared : Prepared items) (hit : it ∈ items)
    (clock : ℕ → Time) : Shows validate x.sys.store j it
      (streamRow validate clock x.sys.store j it.row) := by
  have hdomain := hprepared.domain it hit
  -- an item with a domain finds its row of the queue, and is not invalid
  have hjoined : ∀ d, it.domain = some d →
      joined x.sys.store j it.domain = some (x.sys.store.row j d) ∧ it.status = none := by
    intro d hd
    have hmem := (h.mem d).mpr (hprepared.mem_uniqueDomains.mpr ⟨it, hit, hd⟩)
    refine ⟨joined_eq_some.mpr ⟨d, hd, hmem, rfl⟩, ?_⟩
    rcases hdomain with ⟨_, -, -, hstatus⟩ | ⟨hnone, -⟩
    · exact hstatus
    · rw [hd] at hnone
      cases hnone
  constructor
  case rawRow => rfl
  case domain => rfl
  case done =>
    intro d hd hdone
    obtain ⟨i, hi⟩ := mem_iff_getElem?.mp (hprepared.mem_uniqueDomains.mpr ⟨it, hit, hd⟩)
    obtain ⟨r, hr⟩ := Option.isSome_iff_exists.mp ((h.row i d hi).result hdone)
    obtain ⟨hrow, hstatus⟩ := hjoined d hd
    refine ⟨r, hr, ?_⟩
    simp [streamRow, yieldRow, PreparedItem.row, hrow, doneResult, hdone, hr, hstatus]
  case pending =>
    intro d hd hopen
    obtain ⟨hrow, hstatus⟩ := hjoined d hd
    have hnone : (streamRow validate clock x.sys.store j it.row).result = none := by
      rw [result_of_not_done hrow hopen]
      simp [pendingResult, PreparedItem.row, hstatus]
    exact ⟨hnone, fun format => by rw [hnone]; rfl⟩
  case invalid =>
    intro hnone
    have hstatus : it.status = some .invalidInput := by
      rcases hdomain with ⟨_, hd, -, -⟩ | ⟨-, hstatus⟩
      · rw [hd] at hnone
        cases hnone
      · exact hstatus
    refine ⟨hstatus, invalidResult it.row, ?_, rfl, rfl⟩
    simp [streamRow, yieldRow, joined, PreparedItem.row, hnone, hstatus]

end

/-- One entry for each item, in order, and one row of the queue for each domain. -/
structure RowPerItem (validate : DomainResult → Option DomainResult) (clock : ℕ → Time)
    (items : List PreparedItem) (j : JobId) (x : Api) : Prop where
  length : (streamRows validate clock x j).length = items.length
  entry : ∀ (i : ℕ) it, items[i]? = some it → it.rowIndex = i ∧
    ∃ entry, (streamRows validate clock x j)[i]? = some entry ∧
      Shows validate x.sys.store j it entry
  mem : ∀ d, .row j d ∈ x.sys.store.rows ↔ ∃ it ∈ items, it.domain = some d
  /-- The rows stand in the order in which their domains first appear. -/
  seq : ∀ (i : ℕ) d, (items.filterMap PreparedItem.domain).eraseDups[i]? = some d →
    (x.sys.store.row j d).seq = i

/-- The download of a job has one entry for each row of its input, whatever happens to the
queue after `create_job`. -/
theorem one_entry_per_item (N : Normalizer) (limit : ℤ)
    (validate : DomainResult → Option DomainResult) (clock : ℕ → Time) (x₀ : Api)
    (now created : Time) (j : JobId) (a : NewJob)
    (hitems : (∃ parsed guess column, prepareItems N parsed guess column = .ok a.items) ∨
      ∃ cells, a.items = preparePlain N cells)
    (hnew : ∀ d, .row j d ∉ x₀.sys.store.rows) :
    (((x₀.createInChunks now created j a).sys.store.job j).status = .done ↔
        ∀ it ∈ a.items, it.domain = none) ∧
      ∀ h x, Transition.Run (fun x => x = x₀.createInChunks now created j a) (ApiStep limit) h x →
        RowPerItem validate clock a.items j x := by
  have hprepared : Prepared a.items := by
    rcases hitems with ⟨_, _, _, hitems⟩ | ⟨cells, hitems⟩
    · exact prepared_prepareItems hitems
    · rw [hitems]
      exact prepared_preparePlain N cells
  rw [Api.createInChunks_eq]
  refine ⟨?_, fun h x hrun => ?_⟩
  · have hjob : (x₀.create now created j a).sys.store.job j = a.job now created := by
      exact job_createJob.trans (if_pos rfl)
    rw [hjob, ← hprepared.uniqueDomains_eq_nil, NewJob.job]
    split
    · rename_i hdomains
      exact iff_of_true rfl hdomains
    · rename_i hdomains
      exact iff_of_false (by simp) hdomains
  · have hholds := (holds_create hnew).run hrun
    have hstream : streamRows validate clock x j =
        a.items.map fun it => streamRow validate clock x.sys.store j it.row := by
      rw [streamRows_eq, hholds.input, hprepared.byIndex, map_map]
      rfl
    constructor
    case length => rw [hstream, length_map]
    case entry =>
      intro i it hi
      refine ⟨hprepared.rowIndex i it hi, _, ?_, hholds.shows hprepared (mem_of_getElem? hi)
        clock⟩
      rw [hstream, List.getElem?_map, hi, Option.map_some]
    case mem => exact fun d => (hholds.mem d).trans hprepared.mem_uniqueDomains
    case seq =>
      intro i d hd
      rw [← hprepared.uniqueDomains] at hd
      exact (hholds.row i d hd).seq

namespace OneDomain

def normalizer : Normalizer :=
  ⟨.ascii, fun _ => ⟨[], "a".toList, "com".toList⟩, fun _ => none⟩

def job : NewJob where
  items := preparePlain normalizer ["a.com".toList, [], "www.a.com".toList]
  webhookUrl := none
  fresh := false
  ownerId := none
  idempotencyKey := none
  idempotencyFingerprint := none

def empty : Api where
  sys := ⟨.blank ∅ fun _ => { createdAt := 0 }, []⟩
  keys _ := none
  fingerprints _ := none
  items _ := []
  posting _ := none

def found : DomainResult := { domain := "a.com".toList, status := .found }

def moves : List ApiMove :=
  [.queue ⟨1, .claim "w".toList [⟨0, "x".toList, "a.com".toList⟩]⟩,
    .queue ⟨2, .finish ⟨0, "a.com".toList, 1, "w|x".toList, none⟩ found false true⟩]

end OneDomain

/-- Both items of a domain show its result. -/
theorem repeated_domain_shows_result :
    ∃ h x, Transition.Run (fun x => x = OneDomain.empty.createInChunks 0 0 0 OneDomain.job)
        (ApiStep 3) h x ∧ (x.sys.store.row 0 "a.com".toList).state = .done ∧
      ∀ i ∈ [0, 2], (streamRows some (fun _ => 3) x 0)[i]?.map StreamRow.result =
        some (some OneDomain.found) := by
  obtain ⟨h, x, hrun, hdone, hresult⟩ := Transition.Run.exists_of_exec
    (fun x => x = OneDomain.empty.createInChunks 0 0 0 OneDomain.job) (apiStep 3)
    (OneDomain.empty.createInChunks 0 0 0 OneDomain.job) rfl OneDomain.moves
    (fun p => (p.2.sys.store.row 0 "a.com".toList).state = .done ∧
      (p.2.sys.store.row 0 "a.com".toList).result = some OneDomain.found)
    (by decide +kernel)
  have hrows := (one_entry_per_item OneDomain.normalizer 3 some (fun _ => 3) OneDomain.empty 0 0 0
    OneDomain.job (.inr ⟨_, rfl⟩) (fun _ => Finset.notMem_empty _)).2 h x hrun
  have hdomain : ∀ i ∈ [0, 2], ∃ it : PreparedItem, OneDomain.job.items[i]? = some it ∧
      it.domain = some "a.com".toList := by
    intro i hi
    apply Option.map_eq_some_iff.mp
    revert i
    decide +kernel
  refine ⟨h, x, hrun, hdone, fun i hi => ?_⟩
  obtain ⟨it, hit, hd⟩ := hdomain i hi
  obtain ⟨-, entry, hentry, hshows⟩ := hrows.entry i it hit
  obtain ⟨r, hr, hshown⟩ := hshows.done _ hd hdone
  rw [hentry, Option.map_some, hshown, Option.some.inj (hr.symm.trans hresult)]

end Jobs

end EmailExtractor
