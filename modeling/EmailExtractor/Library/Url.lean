import EmailExtractor.Library.Text

/-!
# URL splitting and joining

The functions of Python's `urllib.parse` (3.12) on text: `urlsplit` with the checks
of the network location that raise `ValueError`, the `hostname` and `port`
properties, `urlunsplit`, `urlparse`, `urljoin` and `urldefrag`.
-/

inductive ValueError
  | valueError
  deriving DecidableEq

namespace Url

structure SplitResult where
  scheme : Str
  netloc : Str
  path : Str
  query : Str
  fragment : Str
  deriving DecidableEq

def usesRelative : List Str :=
  ["", "ftp", "http", "gopher", "nntp", "imap", "wais", "file", "https", "shttp", "mms",
    "prospero", "rtsp", "rtsps", "rtspu", "sftp", "svn", "svn+ssh", "ws",
    "wss"].map String.toList

def usesNetloc : List Str :=
  ["", "ftp", "http", "gopher", "nntp", "telnet", "imap", "wais", "file", "mms", "https",
    "shttp", "snews", "prospero", "rtsp", "rtsps", "rtspu", "rsync", "svn", "svn+ssh",
    "sftp", "nfs", "git", "git+ssh", "ws", "wss"].map String.toList

def usesParams : List Str :=
  ["", "ftp", "hdl", "prospero", "http", "imap", "https", "shttp", "rtsp", "rtsps",
    "rtspu", "sip", "sips", "mms", "sftp", "tel"].map String.toList

def isSchemeChar (c : Char) : Bool := c.isAlphanum || c = '+' || c = '-' || c = '.'

/-! ## The network location -/

def isHexDigit (c : Char) : Bool :=
  c.isDigit || ('a' ≤ c && c ≤ 'f') || ('A' ≤ c && c ≤ 'F')

/-- A decimal octet of an IPv4 address, without leading zeros. -/
def isOctet (s : Str) : Bool :=
  s ≠ [] && s.all Char.isDigit && s.length ≤ 3 && (s = ['0'] || s.head? ≠ some '0') &&
    Str.decimal s ≤ 255

def isIpv4 (s : Str) : Bool :=
  let octets := s.splitOn '.'
  octets.length = 4 && octets.all isOctet

def isHextet (s : Str) : Bool := s ≠ [] && s.all isHexDigit && s.length ≤ 4

/-- The groups of an IPv6 address between its colons, a trailing IPv4 address counted
as two groups. -/
def ipv6Groups (s : Str) : Option (List Str) :=
  let parts := s.splitOn ':'
  let last := parts.getLastD []
  if parts.length < 3 then none
  else if last.contains '.' then
    if isIpv4 last then some (parts.dropLast ++ [['0'], ['0']]) else none
  else some parts

/-- `ipaddress.IPv6Address(s)` succeeds. -/
def isIpv6 (s : Str) : Bool :=
  let (addr, hasZone, zone) := Str.partition '%' s
  if hasZone && (zone = [] || zone.contains '%') then false
  else
    match ipv6Groups addr with
    | none => false
    | some parts =>
      let inner := (parts.drop 1).dropLast
      let hi := inner.takeWhile (· ≠ [])
      if 9 < parts.length then false
      else if hi.length = inner.length then
        -- no group is left out
        parts.length = 8 && parts.all isHextet
      else
        let lo := inner.drop (hi.length + 1)
        let head := parts.headD []
        let last := parts.getLastD []
        -- one group left out, an empty end only next to it
        lo.all (· ≠ []) && (head ≠ [] || hi = []) && (last ≠ [] || lo = []) &&
          (hi ++ lo ++ [head, last].filter (· ≠ [])).all isHextet &&
          (hi ++ lo ++ [head, last].filter (· ≠ [])).length ≤ 7

/-- `_check_bracketed_host` accepts the text between the brackets. -/
def bracketedHost (s : Str) : Bool :=
  match s with
  | 'v' :: t =>
    let (digits, dot, rest) := Str.partition '.' t
    dot && digits ≠ [] && digits.all isHexDigit && rest ≠ [] && !rest.contains '\n'
  | _ => isIpv6 s

/-- `_hostinfo`: the host and the port as they are written. -/
def hostinfo (netloc : Str) : Str × Option Str :=
  let info := Str.afterLast '@' netloc
  let (_, bracket, bracketed) := Str.partition '[' info
  let (host, port) :=
    if bracket then
      let (host, _, tail) := Str.partition ']' bracketed
      (host, (Str.partition ':' tail).2.2)
    else
      let (host, _, port) := Str.partition ':' info
      (host, port)
  (host, if port = [] then none else some port)

def bracketedNetloc (netloc : Str) : Bool :=
  let info := Str.afterLast '@' netloc
  let (before, bracket, bracketed) := Str.partition '[' info
  if bracket then
    let (host, _, tail) := Str.partition ']' bracketed
    before = [] && (tail = [] || tail.head? = some ':') && bracketedHost host
  else
    bracketedHost (Str.partition ':' info).1

/-- `_checknetloc`: no character of the location decomposes to a delimiter. -/
def checkNetloc (U : Unicode) (netloc : Str) : Bool :=
  netloc = [] || Str.isAscii netloc ||
    let n := netloc.filter fun c => !"@:#?".toList.contains c
    let m := U.nfkc n
    n = m || !m.any fun c => "/?#@:".toList.contains c

/-! ## Splitting -/

def splitScheme (url dflt : Str) : Str × Str :=
  let (head, found, rest) := Str.partition ':' url
  match head with
  | [] => (dflt, url)
  | c :: _ =>
    if found && c.isAlpha && head.all isSchemeChar then (head.map Char.toLower, rest)
    else (dflt, url)

/-- `_splitnetloc` on a text that starts with `//`. -/
def splitNetloc : Str → Str × Str
  | '/' :: '/' :: s =>
    (s.takeWhile fun c => !"/?#".toList.contains c,
      s.dropWhile fun c => !"/?#".toList.contains c)
  | s => ([], s)

def bracketsOk (netloc : Str) : Bool :=
  let opened := netloc.contains '['
  let closed := netloc.contains ']'
  if opened && closed then bracketedNetloc netloc else !opened && !closed

/-- `urlsplit(url, scheme)`. -/
def urlsplitWith (U : Unicode) (url scheme : Str) : Except ValueError SplitResult :=
  let url := (url.dropWhile fun c => c.val ≤ 0x20).filter fun c =>
    !"\t\r\n".toList.contains c
  let (scheme, url) := splitScheme url scheme
  let (netloc, url) := splitNetloc url
  if !bracketsOk netloc then .error .valueError
  else
    let (url, _, fragment) := Str.partition '#' url
    let (path, _, query) := Str.partition '?' url
    if !checkNetloc U netloc then .error .valueError
    else .ok ⟨scheme, netloc, path, query, fragment⟩

def urlsplit (U : Unicode) (url : Str) : Except ValueError SplitResult := urlsplitWith U url []

/-- The `hostname` property, with the empty text for `None`. -/
def SplitResult.hostname (U : Unicode) (r : SplitResult) : Str :=
  let (host, percent, zone) := Str.partition '%' (hostinfo r.netloc).1
  U.lower host ++ (if percent then '%' :: zone else [])

def SplitResult.port (r : SplitResult) : Except ValueError (Option ℕ) :=
  match (hostinfo r.netloc).2 with
  | none => .ok none
  | some port =>
    if port.all Char.isDigit && port.length ≤ 4300 then
      if Str.decimal port ≤ 65535 then .ok (some (Str.decimal port)) else .error .valueError
    else .error .valueError

/-! ## Putting together -/

def urlunsplit (r : SplitResult) : Str :=
  let url :=
    if r.netloc ≠ [] || (r.scheme ≠ [] && usesNetloc.contains r.scheme) ||
        Str.startsWith r.path ['/', '/'] then
      let path := if r.path ≠ [] && r.path.head? ≠ some '/' then '/' :: r.path else r.path
      '/' :: '/' :: (r.netloc ++ path)
    else r.path
  (if r.scheme ≠ [] then r.scheme ++ [':'] else []) ++ url ++
    (if r.query ≠ [] then '?' :: r.query else []) ++
    (if r.fragment ≠ [] then '#' :: r.fragment else [])

def splitParams (path : Str) : Str × Str :=
  let last := Str.afterLast '/' path
  let (body, _, params) := Str.partition ';' last
  (path.take (path.length - last.length) ++ body, params)

/-- `urlparse(url, scheme)`: the split result with the parameters of the last path
segment taken off. -/
def urlparse (U : Unicode) (url scheme : Str) : Except ValueError (SplitResult × Str) := do
  let r ← urlsplitWith U url scheme
  if usesParams.contains r.scheme && r.path.contains ';' then
    let (path, params) := splitParams r.path
    return ({ r with path := path }, params)
  return (r, [])

def urlunparse (r : SplitResult) (params : Str) : Str :=
  urlunsplit { r with path := if params ≠ [] then r.path ++ ';' :: params else r.path }

/-- Dot segments resolved; `acc` is the resolved path so far, reversed. -/
def resolveSegments (acc : List Str) : List Str → List Str
  | [] => acc.reverse
  | s :: segs =>
    if s = ['.', '.'] then resolveSegments acc.tail segs
    else if s = ['.'] then resolveSegments acc segs
    else resolveSegments (s :: acc) segs

/-- The path of a relative reference resolved against the path of the base. -/
def joinPath (bpath path : Str) : Str :=
  let parts := bpath.splitOn '/'
  let base := if parts.getLastD [] ≠ [] then parts.dropLast else parts
  let segments :=
    if path.head? = some '/' then path.splitOn '/'
    else
      match base ++ path.splitOn '/' with
      | [] => []
      | s :: segs => s :: (segs.dropLast.filter (· ≠ []) ++ [segs.getLastD []])
  let resolved := resolveSegments [] segments
  let last := segments.getLastD []
  let out := Str.join ['/']
    (if last = ['.'] || last = ['.', '.'] then resolved ++ [[]] else resolved)
  if out = [] then ['/'] else out

/-- `urljoin(base, url)`. -/
def urljoin (U : Unicode) (base url : Str) : Except ValueError Str :=
  if base = [] then .ok url
  else if url = [] then .ok base
  else do
    let (b, bparams) ← urlparse U base []
    let (r, params) ← urlparse U url b.scheme
    if r.scheme ≠ b.scheme || !usesRelative.contains r.scheme then return url
    if usesNetloc.contains r.scheme && r.netloc ≠ [] then return urlunparse r params
    let netloc := if usesNetloc.contains r.scheme then b.netloc else r.netloc
    if r.path = [] && params = [] then
      let query := if r.query = [] then b.query else r.query
      return urlunparse { r with netloc := netloc, path := b.path, query := query } bparams
    return urlunparse { r with netloc := netloc, path := joinPath b.path r.path } params

/-- `urldefrag(url)[0]`. -/
def urldefrag (U : Unicode) (url : Str) : Except ValueError Str :=
  if url.contains '#' then do
    let (r, params) ← urlparse U url []
    return urlunparse { r with fragment := [] } params
  else .ok url

end Url
