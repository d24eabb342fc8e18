import EmailExtractor.Fetch.Retries

/-!
# Redirects

`guard_url` and `_raw_get` against a network that answers as it likes. The events of a fetch,
the answers of the guard and the requests, are listed in their order, and what the resolver
and the server answer may depend on all the events before.

Redirects are followed by hand, so that the guard sees every URL before it is requested. A
round of the loop appends one of two things to the events: a refusal of the guard, and then
the loop is left, or a guard that returned together with the request of the same URL.
-/

namespace EmailExtractor

namespace Fetch

open Pipeline Url List

abbrev Bytes := List UInt8

def maxRedirects : ℕ := 5

def redirectStatuses : List ℕ := [301, 302, 303, 307, 308]

structure FetchSettings where
  fetchGuardPrivateAddresses : Bool
  maxPageBytes : ℕ

inductive ResolveError
  | privateAddress
  | osError
  | other (e : Exc)

/-- A streamed response: the chunks that arrive, what reading raises after the last one, and
what leaving the stream raises. -/
structure Streamed where
  statusCode : ℕ
  location : Option Str
  chunks : List Bytes
  breaksWith : Option Exc := none
  closesWith : Option Exc := none

def Streamed.body (r : Streamed) : Bytes := r.chunks.flatten

inductive Event
  | guarded (url : Str) (answer : Except Raised Unit)
  | requested (url : Str)

def Event.isRequest : Event → Bool
  | .requested _ => true
  | .guarded _ _ => false

/-- What the resolver and the servers answer after the events so far. -/
structure Net where
  resolvePublic : List Event → Str → ℕ → Except ResolveError Unit
  respond : List Event → Str → Except Exc Streamed

def valueError : Exc := ⟨.other, "ValueError".toList, []⟩

def tooManyRedirects : Exc :=
  ⟨.tooManyRedirects, "TooManyRedirects".toList,
    "more than ".toList ++ (Nat.repr maxRedirects).toList ++ " redirects".toList⟩

variable (U : Unicode) (S : FetchSettings) (N : Net)

def guardUrl (es : List Event) (url : Str) : Except Raised Unit :=
  if !S.fetchGuardPrivateAddresses then .ok ()
  else
    match urlsplit U url with
    | .error _ => .error (.exception valueError)
    | .ok parts =>
      let host := parts.hostname U
      if host = [] then .ok ()
      else
        match parts.port with
        | .error _ => .ok ()
        | .ok port =>
          -- The port zero is as good as none.
          let port := if port.getD 0 = 0 then
              if parts.scheme = "https".toList then 443 else 80
            else port.getD 0
          match N.resolvePublic es host port with
          | .ok _ => .ok ()
          | .error .privateAddress =>
            .error (.fetchError ⟨.permanent, "private_address".toList, host, false⟩)
          -- A host that does not resolve is left to the client.
          | .error .osError => .ok ()
          | .error (.other e) => .error (.exception e)

/-! ## The loop -/

def readChunks (r : Streamed) (chunks : List Bytes) (total : ℕ) :
    List Bytes → Except Exc (List Bytes)
  | [] =>
    match r.breaksWith with
    | none => .ok chunks
    | some e => .error e
  | chunk :: rest =>
    if S.maxPageBytes ≤ total + chunk.length then .ok (chunks ++ [chunk])
    else readChunks r (chunks ++ [chunk]) (total + chunk.length) rest

/-- The body of the `async with`: the URL of the next round, or what is returned. -/
def receive (url : Str) (r : Streamed) : Except Exc (Str ⊕ Streamed × Bytes) :=
  let location := r.location.getD []
  if redirectStatuses.contains r.statusCode && location ≠ [] then
    match urljoin U url location with
    | .ok url => .ok (.inl url)
    | .error _ => .error valueError
  else
    match readChunks S r [] 0 r.chunks with
    | .ok chunks => .ok (.inr (r, chunks.flatten.take S.maxPageBytes))
    | .error e => .error e

/-- The stream is left on every way out of its body. -/
def stream (url : Str) (r : Streamed) : Except Exc (Str ⊕ Streamed × Bytes) :=
  match r.closesWith with
  | none => receive U S url r
  | some e => .error e

def hop (es : List Event) (url : Str) : List Event × Except Raised (Str ⊕ Streamed × Bytes) :=
  let answer := guardUrl U S N es url
  let es := es ++ [.guarded url answer]
  match answer with
  | .error e => (es, .error e)
  | .ok _ =>
    match N.respond es url with
    | .error e => (es ++ [.requested url], .error (.exception e))
    | .ok r =>
      match stream U S url r with
      | .error e => (es ++ [.requested url], .error (.exception e))
      | .ok out => (es ++ [.requested url], .ok out)

def rawGetLoop : ℕ → List Event → Str → List Event × Except Raised (Streamed × Bytes)
  | 0, es, _ => (es, .error (.exception tooManyRedirects))
  | n + 1, es, url =>
    match hop U S N es url with
    | (es, .error e) => (es, .error e)
    | (es, .ok (.inl url)) => rawGetLoop n es url
    | (es, .ok (.inr out)) => (es, .ok out)

def rawGet (url : Str) : List Event × Except Raised (Streamed × Bytes) :=
  rawGetLoop U S N (maxRedirects + 1) [] url

/-! ## What a round does -/

variable {U S N} {es : List Event} {url : Str} {r r' : Streamed} {body : Bytes}

theorem readChunks_isPrefix {chunks rest got : List Bytes} {total : ℕ}
    (h : readChunks S r chunks total rest = .ok got) : got <+: chunks ++ rest := by
  induction rest generalizing chunks total with
  | nil =>
    rw [readChunks] at h
    cases hbreaks : r.breaksWith with
    | some e =>
      rw [hbreaks] at h
      cases h
    | none =>
      rw [hbreaks] at h
      cases h
      rw [append_nil]
  | cons chunk rest ih =>
    rw [readChunks] at h
    rw [append_cons]
    split at h
    · cases h
      exact prefix_append _ _
    · exact ih h

theorem receive_body (h : receive U S url r = .ok (.inr (r', body))) :
    r' = r ∧ body <+: r.body ∧ body.length ≤ S.maxPageBytes := by
  unfold receive at h
  dsimp only at h
  split at h
  · split at h
    · cases h
    · cases h
  · cases hread : readChunks S r [] 0 r.chunks with
    | error e =>
      rw [hread] at h
      cases h
    | ok chunks =>
      rw [hread] at h
      cases h
      refine ⟨rfl, ?_, length_take_le _ _⟩
      calc chunks.flatten.take S.maxPageBytes
        _ <+: chunks.flatten := List.take_prefix _ _
        _ <+: r.body := (readChunks_isPrefix hread).flatten

theorem stream_body (h : stream U S url r = .ok (.inr (r', body))) :
    r' = r ∧ body <+: r.body ∧ body.length ≤ S.maxPageBytes := by
  rw [stream] at h
  cases hclose : r.closesWith with
  | some e =>
    rw [hclose] at h
    cases h
  | none =>
    rw [hclose] at h
    exact receive_body h

/-- What a round returns comes from the response to its request. -/
def Delivered (S : FetchSettings) (N : Net) (es : List Event) (r : Streamed) (body : Bytes) :
    Prop :=
  ∃ before url, es = before ++ [.requested url] ∧ N.respond before url = .ok r ∧
    body <+: r.body ∧ body.length ≤ S.maxPageBytes

/-- The guard refuses the URL and the loop is left, or the URL is requested at once. -/
theorem hop_cases (U : Unicode) (S : FetchSettings) (N : Net) (es : List Event) (url : Str) :
    (∃ e, hop U S N es url = (es ++ [.guarded url (.error e)], .error e)) ∨
      guardUrl U S N es url = .ok () ∧ ∃ out,
        hop U S N es url = (es ++ [.guarded url (.ok ())] ++ [.requested url], out) ∧
        ∀ r body, out = .ok (.inr (r, body)) →
          Delivered S N (es ++ [.guarded url (.ok ())] ++ [.requested url]) r body := by
  cases hguard : guardUrl U S N es url with
  | error e =>
    refine .inl ⟨e, ?_⟩
    simp only [hop, hguard]
  | ok u =>
    refine .inr ⟨rfl, ?_⟩
    cases hrespond : N.respond (es ++ [.guarded url (.ok ())]) url with
    | error e =>
      refine ⟨.error (.exception e), ?_, fun _ _ h => nomatch h⟩
      simp only [hop, hguard, hrespond]
    | ok r =>
      cases hstream : stream U S url r with
      | error e =>
        refine ⟨.error (.exception e), ?_, fun _ _ h => nomatch h⟩
        simp only [hop, hguard, hrespond, hstream]
      | ok out =>
        refine ⟨.ok out, ?_, fun r' body h => ?_⟩
        · simp only [hop, hguard, hrespond, hstream]
        · cases h
          obtain ⟨rfl, hbody⟩ := stream_body hstream
          exact ⟨_, url, rfl, hrespond, hbody⟩

/-! ## What a fetch does -/

/-- Every request comes directly after the guard returned for its URL. -/
def RequestsGuarded (U : Unicode) (S : FetchSettings) (N : Net) (es : List Event) : Prop :=
  ∀ before url after, es = before ++ .requested url :: after →
    ∃ earlier, before = earlier ++ [.guarded url (.ok ())] ∧ guardUrl U S N earlier url = .ok ()

/-- A refusal of the guard is the last event, and what it raised leaves the fetch. -/
def RefusalsLast (es : List Event) (out : Except Raised (Streamed × Bytes)) : Prop :=
  ∀ before url e after, es = before ++ .guarded url (.error e) :: after →
    after = [] ∧ out = .error e

def Unrefused (es : List Event) : Prop := ∀ url e, Event.guarded url (.error e) ∉ es

theorem append_cons_eq_concat {α : Type*} {before after l : List α} {x y : α}
    (h : l ++ [y] = before ++ x :: after) :
    l = before ∧ y = x ∧ after = [] ∨ ∃ rest, l = before ++ x :: rest ∧ after = rest ++ [y] := by
  rcases eq_nil_or_concat' after with rfl | ⟨rest, z, rfl⟩
  · obtain ⟨hl, hy⟩ := append_inj' h rfl
    cases hy
    exact .inl ⟨hl, rfl, rfl⟩
  · rw [← cons_append, ← append_assoc] at h
    obtain ⟨hl, hy⟩ := append_inj' h rfl
    cases hy
    exact .inr ⟨rest, hl, rfl⟩

theorem RequestsGuarded.guard (h : RequestsGuarded U S N es) (url : Str)
    (answer : Except Raised Unit) :
    RequestsGuarded U S N (es ++ [.guarded url answer]) := by
  intro before url' after heq
  rcases append_cons_eq_concat heq with ⟨-, hevent, -⟩ | ⟨rest, hes, -⟩
  · cases hevent
  · exact h before url' rest hes

theorem RequestsGuarded.request (h : RequestsGuarded U S N es)
    (hguard : guardUrl U S N es url = .ok ()) :
    RequestsGuarded U S N (es ++ [.guarded url (.ok ())] ++ [.requested url]) := by
  intro before url' after heq
  rcases append_cons_eq_concat heq with ⟨hbefore, hevent, -⟩ | ⟨rest, hes, -⟩
  · cases hevent
    exact ⟨es, hbefore.symm, hguard⟩
  · exact h.guard url _ before url' rest hes

theorem Unrefused.request (h : Unrefused es) (url : Str) :
    Unrefused (es ++ [.guarded url (.ok ())] ++ [.requested url]) := by
  intro url' e hmem
  simp only [mem_append, mem_singleton] at hmem
  rcases hmem with (hmem | hmem) | hmem
  · exact h url' e hmem
  · cases hmem
  · cases hmem

theorem Unrefused.refusalsLast (h : Unrefused es) (out : Except Raised (Streamed × Bytes)) :
    RefusalsLast es out := by
  rintro before url' e after rfl
  exact absurd (mem_append_right _ mem_cons_self) (h url' e)

theorem Unrefused.refusalsLast_concat (h : Unrefused es) (e : Raised) :
    RefusalsLast (es ++ [.guarded url (.error e)]) (.error e) := by
  intro before url' e' after heq
  rcases append_cons_eq_concat heq with ⟨-, hevent, hafter⟩ | ⟨rest, hes, -⟩
  · cases hevent
    exact ⟨hafter, rfl⟩
  · rw [hes] at h
    exact absurd (mem_append_right _ mem_cons_self) (h url' e')

theorem countP_isRequest_request (es : List Event) (url : Str) :
    (es ++ [Event.guarded url (.ok ())] ++ [Event.requested url]).countP Event.isRequest =
      es.countP Event.isRequest + 1 := by
  simp [Event.isRequest]

structure Guards (U : Unicode) (S : FetchSettings) (N : Net) (most : ℕ) (es : List Event)
    (out : Except Raised (Streamed × Bytes)) : Prop where
  guarded : RequestsGuarded U S N es
  refused : RefusalsLast es out
  requests : es.countP Event.isRequest ≤ most
  delivered : ∀ r body, out = .ok (r, body) → Delivered S N es r body

/-- By induction on the rounds that are left: no guard has refused before a round, and a
round makes one request at most. -/
theorem guards_rawGetLoop (U : Unicode) (n : ℕ) (url : Str) (hguarded : RequestsGuarded U S N es)
    (hun : Unrefused es) :
    Guards U S N (es.countP Event.isRequest + n) (rawGetLoop U S N n es url).1
      (rawGetLoop U S N n es url).2 := by
  induction n generalizing es url with
  | zero => exact ⟨hguarded, hun.refusalsLast _, le_rfl, fun _ _ h => nomatch h⟩
  | succ n ih =>
    rcases hop_cases U S N es url with ⟨e, hhop⟩ | ⟨hguard, out, hhop, hout⟩
    · simp only [rawGetLoop, hhop]
      refine ⟨hguarded.guard url _, hun.refusalsLast_concat e, ?_, fun _ _ h => nomatch h⟩
      simp [Event.isRequest]
    · have hguarded' := hguarded.request hguard
      have hun' := hun.request url
      have hcount := countP_isRequest_request es url
      cases out with
      | error e =>
        simp only [rawGetLoop, hhop]
        refine ⟨hguarded', hun'.refusalsLast _, ?_, fun _ _ h => nomatch h⟩
        omega
      | ok next =>
        cases next with
        | inl url' =>
          simp only [rawGetLoop, hhop]
          have hrest := ih url' hguarded' hun'
          rwa [hcount, Nat.add_assoc, Nat.add_comm 1] at hrest
        | inr page =>
          simp only [rawGetLoop, hhop]
          refine ⟨hguarded', hun'.refusalsLast _, by omega, ?_⟩
          intro r body h
          cases h
          exact hout r body rfl

/-- Whatever the guard, the resolver and the servers answer: a URL is requested directly
after the guard returned for it, a refusal ends the fetch, and the body is cut from the
response to the last request. -/
theorem rawGet_guards (U : Unicode) (S : FetchSettings) (N : Net) (url : Str) :
    Guards U S N (maxRedirects + 1) (rawGet U S N url).1 (rawGet U S N url).2 := by
  have hguarded : RequestsGuarded U S N [] := by
    intro before _ _ h
    cases before with
    | nil => cases h
    | cons _ _ => cases h
  have hun : Unrefused [] := fun _ _ h => nomatch h
  have h := guards_rawGetLoop (S := S) (N := N) U (maxRedirects + 1) url hguarded hun
  rwa [countP_nil, Nat.zero_add] at h

end Fetch

end EmailExtractor
