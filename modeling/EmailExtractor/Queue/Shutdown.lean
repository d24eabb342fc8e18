import EmailExtractor.Queue.Locks

/-!
# What a clean shutdown releases

`release_worker` finds the rows and locks of a worker by the pattern `id|%`, with the id
as it is. An id starts with the name of the host, so a metacharacter of `LIKE` in that name
changes what the pattern matches: with `_` or `%` it may match the tokens of another
worker, with a backslash it may miss its own. What is released is right exactly when the
pattern tells the tokens apart; a host name without them leaves one case, a worker whose own
host name starts with the whole id of the other one and a bar.
-/

namespace EmailExtractor

namespace Queue

open List

/-! ## Worker ids and their tokens -/

/-- The first `n` digits of `uuid4().hex`. -/
def IsHex (n : ℕ) (hex : Str) : Prop :=
  hex.length = n ∧ hex.all (fun c => "0123456789abcdef".toList.contains c) = true

instance (n : ℕ) (hex : Str) : Decidable (IsHex n hex) := inferInstanceAs (Decidable (_ ∧ _))

structure WorkerId where
  host : Str
  pid : ℕ
  hex : Str
  isHex : IsHex 6 hex

def WorkerId.text (w : WorkerId) : Str :=
  w.host ++ ':' :: (Nat.toDigits 10 w.pid ++ ':' :: w.hex)

/-- The token can come from `new_token` of the worker. -/
def WorkerId.Minted (w : WorkerId) (tok : Str) : Prop :=
  ∃ hex, IsHex 12 hex ∧ tok = newToken w.text hex

section

variable {w v : WorkerId} {s : Store} {now : Time} {j : JobId} {d tok : Str}

theorem IsHex.notMem {n : ℕ} {hex : Str} (h : IsHex n hex) {c : Char}
    (hc : "0123456789abcdef".toList.contains c = false) : c ∉ hex := by
  intro hmem
  have hdigit := all_eq_true.mp h.2 c hmem
  rw [hc] at hdigit
  cases hdigit

theorem IsHex.literal {n : ℕ} {hex : Str} (h : IsHex n hex) : Sql.Literal hex := by
  intro c hmem
  refine ⟨?_, ?_, ?_⟩ <;> rintro rfl <;> exact h.notMem (by decide) hmem

theorem literal_toDigits (n : ℕ) : Sql.Literal (Nat.toDigits 10 n) := by
  intro c hmem
  have hdigit := Nat.isDigit_of_mem_toDigits (by decide) (by decide) hmem
  refine ⟨?_, ?_, ?_⟩ <;> rintro rfl <;> cases hdigit

theorem WorkerId.literal_text (h : Sql.Literal w.host) : Sql.Literal w.text := by
  have hcolon : Sql.Literal [':'] := by decide
  exact h.append (hcolon.append ((literal_toDigits w.pid).append (hcolon.append w.isHex.literal)))

/-- The tokens of `v` that start with the id of `w`: none unless `v` is `w` or starts with
the id itself. -/
theorem WorkerId.prefix_token {hex : Str} (hhex : IsHex 12 hex) :
    w.text ++ ['|'] <+: newToken v.text hex ↔ v.text = w.text ∨ w.text ++ ['|'] <+: v.text := by
  constructor
  · rintro ⟨rest, hrest⟩
    rw [newToken, append_assoc, singleton_append] at hrest
    rcases append_eq_append_iff.mp hrest with ⟨x, hv, hx⟩ | ⟨x, hw, hx⟩
    · cases x with
      | nil => exact .inl (by rw [hv, append_nil])
      | cons c x =>
        rw [cons_append, List.cons.injEq] at hx
        exact .inr ⟨x, by rw [hv, ← hx.1, append_assoc]; rfl⟩
    · cases x with
      | nil => exact .inl (by rw [hw, append_nil])
      | cons c x =>
        -- the bar after the id of `w` would stand among the digits
        rw [cons_append, List.cons.injEq] at hx
        refine absurd ?_ (hhex.notMem (c := '|') (by decide))
        rw [hx.2]
        simp
  · rintro (heq | hv)
    · exact ⟨hex, by rw [heq, newToken]; simp⟩
    · exact hv.trans (prefix_append _ _)

/-! ## The statements of `release_worker` -/

theorem row_releaseWorker (worker : Str) : (releaseWorker s now worker).row j d =
    if .row j d ∈ s.rows ∧ (s.row j d).heldLike (tokenPattern worker) = true then
      (s.row j d).released now
    else s.row j d := by
  rw [releaseWorker, releaseDomains, Store.row_exec_onDomain, releaseRows, Store.row_exec_onRow]

theorem domain_releaseWorker (worker : Str) : (releaseWorker s now worker).domain d =
    if .domain d ∈ s.rows ∧ (s.domain d).lockedLike (tokenPattern worker) = true then
      (s.domain d).unlocked
    else s.domain d := by
  rw [releaseWorker, releaseDomains, Store.domain_exec_onDomain, releaseRows,
    Store.domain_exec_onRow]
  rfl

/-- Every running row and every lock of the worker is given back. -/
structure ReleasesOwn (s : Store) (now : Time) (w : WorkerId) : Prop where
  row : ∀ j d tok, .row j d ∈ s.rows → (s.row j d).state = .running →
    (s.row j d).claimedBy = some tok → w.Minted tok →
    (releaseWorker s now w.text).row j d = (s.row j d).released now
  lock : ∀ d tok, .domain d ∈ s.rows → (s.domain d).lockOwner = some tok → w.Minted tok →
    (releaseWorker s now w.text).domain d = (s.domain d).unlocked

/-- No row and no lock of the other worker is changed. -/
structure KeepsOther (s : Store) (now : Time) (w v : WorkerId) : Prop where
  row : ∀ j d tok, (s.row j d).claimedBy = some tok → v.Minted tok →
    (releaseWorker s now w.text).row j d = s.row j d
  lock : ∀ d tok, (s.domain d).lockOwner = some tok → v.Minted tok →
    (releaseWorker s now w.text).domain d = s.domain d

theorem releasesOwn (h : ∀ tok, w.Minted tok → Sql.like (tokenPattern w.text) tok = true) :
    ReleasesOwn s now w where
  row := by
    intro j d tok hmem hrunning hclaimed hminted
    rw [row_releaseWorker, if_pos]
    exact ⟨hmem, by simp [JobDomain.heldLike, hrunning, hclaimed, h tok hminted]⟩
  lock := by
    intro d tok hmem howner hminted
    rw [domain_releaseWorker, if_pos]
    exact ⟨hmem, by simp [DomainRow.lockedLike, howner, h tok hminted]⟩

theorem keepsOther (h : ∀ tok, v.Minted tok → Sql.like (tokenPattern w.text) tok = false) :
    KeepsOther s now w v where
  row := by
    intro j d tok hclaimed hminted
    rw [row_releaseWorker, if_neg]
    simp [JobDomain.heldLike, hclaimed, h tok hminted]
  lock := by
    intro d tok howner hminted
    rw [domain_releaseWorker, if_neg]
    simp [DomainRow.lockedLike, howner, h tok hminted]

/-- A row and a lock with the token. -/
def heldStore (tok : Str) : Store where
  rows := {.row 0 [], .domain []}
  val
    | .job _ => ({ createdAt := 0 } : Job)
    | .row _ _ =>
      ({ seq := 0, availableAt := 0, state := .running, claimedBy := some tok } : JobDomain)
    | .domain _ => ({ updatedAt := 0, lockOwner := some tok } : DomainRow)

theorem state_heldStore (tok worker : Str) (now : Time) :
    ((releaseWorker (heldStore tok) now worker).row 0 []).state =
      if Sql.like (tokenPattern worker) tok = true then .queued else .running := by
  have hheld : ((heldStore tok).row 0 []).heldLike (tokenPattern worker) =
      Sql.like (tokenPattern worker) tok := by
    simp [heldStore, Store.row, JobDomain.heldLike]
  rw [row_releaseWorker, hheld]
  by_cases hlike : Sql.like (tokenPattern worker) tok = true
  · rw [if_pos ⟨by simp [heldStore], hlike⟩, if_pos hlike]
    rfl
  · rw [if_neg fun h => hlike h.2, if_neg hlike]
    rfl

theorem not_like_of_keepsOther (hminted : v.Minted tok)
    (h : KeepsOther (heldStore tok) now w v) : Sql.like (tokenPattern w.text) tok = false := by
  have hstate := congrArg JobDomain.state (h.row 0 [] tok rfl hminted)
  rw [state_heldStore] at hstate
  by_contra hlike
  rw [Bool.not_eq_false] at hlike
  rw [if_pos hlike] at hstate
  cases hstate

theorem like_of_releasesOwn (hminted : w.Minted tok)
    (h : ReleasesOwn (heldStore tok) now w) : Sql.like (tokenPattern w.text) tok = true := by
  have hstate := congrArg JobDomain.state
    (h.row 0 [] tok (by simp [heldStore]) rfl rfl hminted)
  rw [state_heldStore] at hstate
  by_contra hlike
  rw [if_neg hlike] at hstate
  cases hstate

/-- What the pattern of `w` says of the tokens of `w` and of `v`. -/
structure TellsApart (w v : WorkerId) : Prop where
  own : ∀ tok, w.Minted tok → Sql.like (tokenPattern w.text) tok = true
  other : ∀ tok, v.Minted tok → Sql.like (tokenPattern w.text) tok = false

/-- With no metacharacter in the host name the pattern is that of the id itself. -/
theorem tellsApart_iff (hhost : Sql.Literal w.host) (hne : v.text ≠ w.text) :
    TellsApart w v ↔ ¬ w.text ++ ['|'] <+: v.text := by
  have hlike := like_tokenPattern (WorkerId.literal_text hhost)
  constructor
  · intro h hstarts
    have hhex : IsHex 12 (List.replicate 12 '0') := by decide
    have hno := h.other _ ⟨_, hhex, rfl⟩
    have hyes := (hlike _).mpr ((WorkerId.prefix_token hhex).mpr (.inr hstarts))
    rw [hno] at hyes
    cases hyes
  · intro hstarts
    refine ⟨?_, ?_⟩
    · rintro tok ⟨hex, hhex, rfl⟩
      exact (hlike _).mpr ((WorkerId.prefix_token hhex).mpr (.inl rfl))
    · rintro tok ⟨hex, hhex, rfl⟩
      rw [← Bool.not_eq_true, hlike, WorkerId.prefix_token hhex]
      exact fun h => h.elim hne hstarts

/-- A worker that shuts down releases all of its own work and nothing of another worker, in
every state, exactly if its pattern matches its own tokens and none of the other's; for a
host name without metacharacters, if the id of the other does not start with its own id
and a bar. -/
theorem releaseWorker_exact_iff (w v : WorkerId) :
    ((∀ s now, ReleasesOwn s now w ∧ KeepsOther s now w v) ↔ TellsApart w v) ∧
      (Sql.Literal w.host → v.text ≠ w.text →
        (TellsApart w v ↔ ¬ w.text ++ ['|'] <+: v.text)) := by
  refine ⟨⟨fun h => ⟨?_, ?_⟩, fun h s now => ⟨releasesOwn h.own, keepsOther h.other⟩⟩,
    tellsApart_iff⟩
  · exact fun tok hminted => like_of_releasesOwn hminted (h (heldStore tok) 0).1
  · exact fun tok hminted => not_like_of_keepsOther hminted (h (heldStore tok) 0).2

/-- A worker on the host; all of them have the same process id and digits. -/
def workerOn (host : Str) : WorkerId := ⟨host, 7, "0a1b2c".toList, by decide⟩

/-- Two workers on plainly named hosts keep apart. -/
theorem plain_hosts_keep_apart :
    ∀ s now, ReleasesOwn s now (workerOn "web-1".toList) ∧
      KeepsOther s now (workerOn "web-1".toList) (workerOn "web-2".toList) := by
  obtain ⟨hexact, hplain⟩ :=
    releaseWorker_exact_iff (workerOn "web-1".toList) (workerOn "web-2".toList)
  exact hexact.mpr ((hplain (by decide) (by decide)).mpr (by decide))

/-- The shutdown of a worker on `web_1` takes a row from a worker on `web-1`, and a worker
on a host with a backslash in its name does not release its own row. -/
theorem metacharacter_hosts_mix_up :
    ((workerOn "web-1".toList).text ≠ (workerOn "web_1".toList).text ∧
      ∃ s now, ¬ KeepsOther s now (workerOn "web_1".toList) (workerOn "web-1".toList)) ∧
    ∃ s now, ¬ ReleasesOwn s now (workerOn "web\\1".toList) := by
  have hhex : IsHex 12 "00112233aabb".toList := by decide
  refine ⟨⟨by decide,
      heldStore (newToken (workerOn "web-1".toList).text "00112233aabb".toList), 0, fun h => ?_⟩,
    heldStore (newToken (workerOn "web\\1".toList).text "00112233aabb".toList), 0, fun h => ?_⟩
  · have hlike := not_like_of_keepsOther ⟨_, hhex, rfl⟩ h
    revert hlike
    decide +kernel
  · have hlike := like_of_releasesOwn ⟨_, hhex, rfl⟩ h
    revert hlike
    decide +kernel

end

end Queue

end EmailExtractor
