import EmailExtractor.Fetch.Redirects

/-!
# Delivering a webhook

`deliver` with the guard of `netguard`: every round looks the host up again, and posts to the
first address of that answer, provided that all its addresses are public. What the resolver
and the receiver answer may differ from round to round. The tables of `ipaddress` are
parameters.
-/

namespace EmailExtractor

namespace Webhook

open Fetch Url

/-! ## Public addresses -/

inductive Address
  | v4 (bits : BitVec 32)
  | v6 (bits : BitVec 128) (zone : Option Str)
  deriving DecidableEq

structure IpTables where
  ipAddress : Str → Option Address
  str : Address → Str
  isGlobal : Address → Bool
  isMulticast : Address → Bool

def Address.ipv4Mapped : Address → Option Address
  | .v6 bits _ => if bits >>> 32 = 0xffff#128 then some (.v4 (bits.truncate 32)) else none
  | .v4 _ => none

/-- `_EMBEDDED_V4`, as the first bits of a network and how many bits follow. -/
def embeddedV4 : List (BitVec 128 × ℕ) :=
  [(0x64ff9b0000000000000000#128, 32), (0x64ff9b0001#128, 80), (0#128, 32), (0x2002#128, 112)]

def Address.embedsV4 : Address → Bool
  | .v6 bits _ => embeddedV4.any fun net => bits >>> net.2 = net.1
  | .v4 _ => false

variable (U : Unicode) (I : IpTables)

def isPublic (ip : Address) : Bool :=
  match ip.ipv4Mapped with
  | some ip => I.isGlobal ip && !I.isMulticast ip
  | none => !ip.embedsV4 && (I.isGlobal ip && !I.isMulticast ip)

/-- The addresses of `netguard.resolve_public`; `infos` is the answer of `getaddrinfo`. -/
def addresses (infos : Except ResolveError (List Address)) (host : Str) :
    Except ResolveError (List Address) :=
  match I.ipAddress (Str.stripChars "[]".toList host) with
  | some ip => .ok [ip]
  | none => infos

def netguardResolvePublic (infos : Except ResolveError (List Address)) (host : Str) :
    Except ResolveError (List Str) :=
  match addresses I infos host with
  | .error e => .error e
  | .ok [] => .error .osError
  | .ok addrs => if addrs.all (isPublic I) then .ok (addrs.map I.str) else .error .privateAddress

/-! ## The check of a webhook's URL -/

structure WebhookSettings where
  allowHttpWebhooks : Bool
  webhookSecret : Str

/-- `WebhookRejected` with its text, or what else is raised. -/
inductive Refused
  | rejected (text : String)
  | other (e : Exc)

/-- `parts.username or parts.password` is not empty. -/
def hasCredentials (netloc : Str) : Bool :=
  let (username, _, password) := Str.partition ':' (Str.beforeLast '@' netloc)
  username ≠ [] || password ≠ []

def portOf (parts : SplitResult) (port : Option ℕ) : ℕ :=
  if port.getD 0 = 0 then if parts.scheme = "https".toList then 443 else 80 else port.getD 0

/-- `resolve_public`: host, address and port. -/
def resolvePublic (S : WebhookSettings) (lookup : Str → ℕ → Except ResolveError (List Address))
    (url : Str) : Except Refused (Str × Str × ℕ) :=
  match urlsplit U url with
  | .error _ => .error (.other valueError)
  | .ok parts =>
    if parts.scheme ≠ "https".toList ∧ parts.scheme ≠ "http".toList then
      .error (.rejected "webhook_url must be an http(s) URL")
    else if parts.scheme = "http".toList ∧ S.allowHttpWebhooks = false then
      .error (.rejected "webhook_url must use https")
    else if hasCredentials parts.netloc then
      .error (.rejected "webhook_url must not contain credentials")
    else if parts.hostname U = [] then .error (.rejected "webhook_url has no host")
    else
      match parts.port with
      | .error _ => .error (.rejected "webhook_url has an invalid port")
      | .ok port =>
        let host := parts.hostname U
        match netguardResolvePublic I (lookup host (portOf parts port)) host with
        | .error .privateAddress =>
          .error (.rejected "webhook_url must point at a public address")
        | .error .osError => .error (.rejected "webhook_url host does not resolve")
        | .error (.other e) => .error (.other e)
        | .ok addrs => .ok (host, addrs.headD [], portOf parts port)

/-! ## The delivery -/

/-- What a delivery reads of its payload: the body that `json.dumps` makes of it, and two of
its members. -/
structure Payload where
  body : Bytes
  deliveryId : Str
  event : Str

structure Post where
  url : Str
  headers : List (String × Str)
  content : Bytes
  sniHostname : Str
  deriving DecidableEq

/-- What the resolver, the receiver and the clock answer in each round. -/
structure Receiver where
  lookup : ℕ → Str → ℕ → Except ResolveError (List Address)
  post : ℕ → Post → Except Exc ℕ
  time : ℕ → ℕ
  isHttpError : Exc → Bool

variable (hmac : Str → Bytes → Str)

def sign (body : Bytes) (timestamp : ℕ) (secret : Str) : Str :=
  let t := Nat.repr timestamp
  ("t=" ++ t ++ ",v1=").toList ++ hmac secret ((t ++ ".").toUTF8.toList ++ body)

variable (S : WebhookSettings) (p : Payload)

def ipHost (ip : Str) : Str := if ip.contains ':' then '[' :: ip ++ [']'] else ip

def request (parts : SplitResult) (host ip : Str) (port timestamp : ℕ) : Post where
  url := urlunsplit ⟨parts.scheme, ipHost ip ++ ':' :: (Nat.repr port).toList,
    if parts.path = [] then ['/'] else parts.path, parts.query, []⟩
  headers :=
    [("Host", Str.afterLast '@' parts.netloc), ("Content-Type", "application/json".toList),
      ("User-Agent", "email-extractor-webhook/1".toList), ("X-Extractor-Delivery", p.deliveryId),
      ("X-Extractor-Event", p.event)] ++
    if S.webhookSecret = [] then []
    else [("X-Extractor-Signature", sign hmac p.body timestamp S.webhookSecret)]
  content := p.body
  sniHostname := host

variable (N : Receiver) (url : Str)

/-- The rounds that are left, the next one being round `n`: the posts of each round, and what
is returned. -/
def deliverLoop : ℕ → ℕ → List (ℕ × Post) × Except Exc Bool
  | 0, _ => ([], .ok false)
  | k + 1, n =>
    match resolvePublic U I S (N.lookup n) url, urlsplit U url with
    | .ok (host, ip, port), .ok parts =>
      let post := request hmac S p parts host ip port (N.time n)
      let rest := deliverLoop k (n + 1)
      match N.post n post with
      | .ok status =>
        if 200 ≤ status ∧ status < 300 then ([(n, post)], .ok true)
        else ((n, post) :: rest.1, rest.2)
      | .error e =>
        if N.isHttpError e then ((n, post) :: rest.1, rest.2) else ([(n, post)], .error e)
    | .error (.other e), _ => ([], .error e)
    | _, _ => ([], .ok false)

def deliver (backoff : List ℚ) : List (ℕ × Post) × Except Exc Bool :=
  deliverLoop U I hmac S p N url (backoff.length + 1) 0

/-! ## Where the posts go -/

/-- The receiver answered with a 2xx. -/
def Receiver.accepts (np : ℕ × Post) : Bool :=
  match N.post np.1 np.2 with
  | .ok status => 200 ≤ status ∧ status < 300
  | .error _ => false

/-- The post of a round goes to the first of the addresses that were looked up in this round
for the host and the port of the URL, all of them public. -/
def Guarded (np : ℕ × Post) : Prop :=
  ∃ parts port a rest, urlsplit U url = .ok parts ∧ parts.port = .ok port ∧
    addresses I (N.lookup np.1 (parts.hostname U) (portOf parts port)) (parts.hostname U) =
      .ok (a :: rest) ∧
    (a :: rest).all (isPublic I) = true ∧
    np.2 = request hmac S p parts (parts.hostname U) (I.str a) (portOf parts port) (N.time np.1)

/-- What a delivery does in at most `k` rounds from round `n` on. -/
structure Delivers (k n : ℕ) (out : List (ℕ × Post) × Except Exc Bool) : Prop where
  rounds : out.1.map Prod.fst = List.range' n out.1.length
  length_le : out.1.length ≤ k
  guarded : ∀ np ∈ out.1, Guarded U I hmac S p N url np
  refused : ∀ np ∈ out.1.dropLast, N.accepts np = false
  returns : out.2 = .ok true ↔ ∃ np ∈ out.1, N.accepts np = true

variable {U I hmac S p N url} {k n : ℕ} {post : Post}

theorem netguardResolvePublic_eq_ok {infos : Except ResolveError (List Address)} {host : Str}
    {addrs : List Str} (h : netguardResolvePublic I infos host = .ok addrs) :
    ∃ a rest, addresses I infos host = .ok (a :: rest) ∧ (a :: rest).all (isPublic I) = true ∧
      addrs.headD [] = I.str a := by
  unfold netguardResolvePublic at h
  split at h
  · cases h
  · cases h
  · rename_i as hne haddrs
    obtain ⟨a, rest, rfl⟩ := List.exists_cons_of_ne_nil hne
    split at h
    · rename_i hpublic
      cases h
      exact ⟨a, rest, haddrs, hpublic, rfl⟩
    · cases h

theorem resolvePublic_eq_ok {lookup : Str → ℕ → Except ResolveError (List Address)}
    {host ip : Str} {port : ℕ} {parts : SplitResult} (hparts : urlsplit U url = .ok parts)
    (h : resolvePublic U I S lookup url = .ok (host, ip, port)) :
    ∃ given a rest, parts.port = .ok given ∧ host = parts.hostname U ∧ port = portOf parts given ∧
      addresses I (lookup host port) host = .ok (a :: rest) ∧
      (a :: rest).all (isPublic I) = true ∧ ip = I.str a := by
  rw [resolvePublic, hparts] at h
  dsimp only at h
  split_ifs at h
  split at h
  · cases h
  rename_i given hport
  split at h
  · cases h
  · cases h
  · cases h
  · rename_i haddrs
    cases h
    obtain ⟨a, rest, haddrs⟩ := netguardResolvePublic_eq_ok haddrs
    exact ⟨given, a, rest, hport, rfl, rfl, haddrs⟩

theorem Delivers.none {out : Except Exc Bool} (hout : out ≠ .ok true) :
    Delivers U I hmac S p N url k n ([], out) :=
  ⟨rfl, Nat.zero_le k, by simp, by simp, by simpa using hout⟩

theorem Delivers.last {out : Except Exc Bool} (hpost : Guarded U I hmac S p N url (n, post))
    (hout : out = .ok true ↔ N.accepts (n, post) = true) :
    Delivers U I hmac S p N url (k + 1) n ([(n, post)], out) :=
  ⟨rfl, by simp, by simpa using hpost, by simp, by simpa using hout⟩

theorem Delivers.next {rest : List (ℕ × Post) × Except Exc Bool}
    (hrest : Delivers U I hmac S p N url k (n + 1) rest)
    (hpost : Guarded U I hmac S p N url (n, post)) (hfails : N.accepts (n, post) = false) :
    Delivers U I hmac S p N url (k + 1) n ((n, post) :: rest.1, rest.2) where
  rounds := by simp [hrest.rounds, List.range'_succ]
  length_le := Nat.succ_le_succ hrest.length_le
  guarded := List.forall_mem_cons.mpr ⟨hpost, hrest.guarded⟩
  refused np hnp := by
    have hrefused := hrest.refused
    cases hposts : rest.1 with
    | nil => simp [hposts] at hnp
    | cons q posts =>
      rw [hposts] at hnp hrefused
      rcases List.mem_cons.mp hnp with rfl | hnp
      · exact hfails
      · exact hrefused np hnp
  returns := by simp [hrest.returns, hfails]

theorem deliverLoop_delivers (k n : ℕ) :
    Delivers U I hmac S p N url k n (deliverLoop U I hmac S p N url k n) := by
  induction k generalizing n with
  | zero => exact .none nofun
  | succ k ih =>
    rw [deliverLoop]
    split
    · rename_i host ip port parts hresolve hparts
      obtain ⟨given, a, rest, hport, rfl, rfl, haddrs, hpublic, rfl⟩ :=
        resolvePublic_eq_ok hparts hresolve
      have hpost : Guarded U I hmac S p N url (n, request hmac S p parts (parts.hostname U)
          (I.str a) (portOf parts given) (N.time n)) :=
        ⟨parts, given, a, rest, hparts, hport, haddrs, hpublic, rfl⟩
      generalize request hmac S p parts (parts.hostname U) (I.str a) (portOf parts given)
        (N.time n) = post at hpost ⊢
      dsimp only
      split
      · rename_i status hstatus
        split
        · rename_i hok
          exact .last hpost (by simp [Receiver.accepts, hstatus, hok])
        · rename_i hfails
          exact (ih (n + 1)).next hpost (by simpa [Receiver.accepts, hstatus] using hfails)
      · rename_i e herror
        split
        · exact (ih (n + 1)).next hpost (by simp [Receiver.accepts, herror])
        · exact .last hpost (by simp [Receiver.accepts, herror])
    · exact .none nofun
    · exact .none nofun

/-- A delivery makes at most one post more than there are pauses, each after a lookup of its
own; it stops at the first 2xx, and returns `True` exactly when there was one. -/
theorem deliver_guarded (backoff : List ℚ) :
    Delivers U I hmac S p N url (backoff.length + 1) 0
      (deliver U I hmac S p N url backoff) :=
  deliverLoop_delivers _ 0

end Webhook

end EmailExtractor
