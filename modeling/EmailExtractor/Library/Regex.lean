import EmailExtractor.Library.Text

/-!
# Backtracking regular expressions

Patterns with the semantics of a backtracking engine: alternatives are tried from
left to right, a greedy repetition tries one more round first, a lazy one tries to go
on first, and the first way through wins. A repetition never takes an empty round.
-/

inductive Regex
  | eps
  | char (p : Char → Bool)
  /-- A condition on the character before the position and the text after it. -/
  | look (p : Option Char → Str → Bool)
  | seq (r s : Regex)
  | alt (r s : Regex)
  | star (greedy : Bool) (r : Regex)
  | group (r : Regex)

namespace Regex

structure State where
  prev : Option Char
  rest : Str
  captured : Str

/-- At most `n` rounds of `body`, then `k`. -/
def loop (body : State → (State → Option State) → Option State) (greedy : Bool)
    (k : State → Option State) : ℕ → State → Option State
  | 0, s => k s
  | n + 1, s =>
    let round := fun (_ : Unit) => body s fun s' =>
      if s'.rest.length < s.rest.length then loop body greedy k n s' else none
    if greedy then (round ()).orElse fun _ => k s else (k s).orElse round

/-- Match at the position `s`, then go on with `k`. -/
def run : Regex → State → (State → Option State) → Option State
  | eps, s, k => k s
  | char p, s, k =>
    match s.rest with
    | [] => none
    | c :: t => if p c then k { s with prev := some c, rest := t } else none
  | look p, s, k => if p s.prev s.rest then k s else none
  | seq r r', s, k => run r s fun s' => run r' s' k
  | alt r r', s, k => (run r s k).orElse fun _ => run r' s k
  | star greedy r, s, k => loop (run r) greedy k s.rest.length s
  | group r, s, k => run r s fun s' =>
    k { s' with captured := s.rest.take (s.rest.length - s'.rest.length) }

/-- The pattern matched at the start of `text`, after the character `prev`. -/
def matchAt (r : Regex) (prev : Option Char) (text : Str) : Option State :=
  run r ⟨prev, text, []⟩ some

structure Match where
  before : Str
  captured : Str
  last : Option Char
  after : Str

/-- The first match in `text`, which follows the character `prev`. -/
def search (r : Regex) (prev : Option Char) (text : Str) : Option Match :=
  match matchAt r prev text with
  | some s => some ⟨[], s.captured, s.prev, s.rest⟩
  | none =>
    match text with
    | [] => none
    | c :: t => (search r (some c) t).map fun m => { m with before := c :: m.before }

/-- `r.search(text)` finds a match. -/
def found (r : Regex) (text : Str) : Bool := (search r none text).isSome

/-- `r.match(text)` finds a match. -/
def matchesStart (r : Regex) (text : Str) : Bool := (matchAt r none text).isSome

/-- `r.fullmatch(text)` finds a match. -/
def fullMatches (r : Regex) (text : Str) : Bool :=
  (run r ⟨none, text, []⟩ fun s => if s.rest = [] then some s else none).isSome

def groupOf (r : Regex) (text : Str) : Option Str := (matchAt r none text).map State.captured

/-- The matches in `text` that do not overlap, at most `n`. -/
def findIter (r : Regex) : ℕ → Option Char → Str → List Match
  | 0, _, _ => []
  | n + 1, prev, text =>
    match search r prev text with
    | none => []
    | some m =>
      -- a pattern of this library that is searched for matches no empty text
      m :: findIter r n m.last m.after

/-- `r.findall(text)` for a pattern with one group. -/
def findAll (r : Regex) (text : Str) : List Str :=
  (findIter r text.length none text).map Match.captured

/-- `r.split(text)` for a pattern without groups. -/
def split (r : Regex) (text : Str) : List Str :=
  let ms := findIter r text.length none text
  ms.map Match.before ++ [(ms.getLast?.map Match.after).getD text]

/-- `r.sub(repl, text)` for a literal `repl`. -/
def sub (r : Regex) (repl text : Str) : Str := Str.join repl (r.split text)

def Match.whole (m : Match) (text : Str) : Str :=
  (text.drop m.before.length).take (text.length - m.before.length - m.after.length)

/-- At most `n` matches replaced by what `f` makes of their text and their group. -/
def replaceIter (r : Regex) (f : Str → Str → Str) : ℕ → Option Char → Str → Str
  | 0, _, text => text
  | n + 1, prev, text =>
    match search r prev text with
    | none => text
    | some m =>
      m.before ++ (f (m.whole text) m.captured ++ replaceIter r f n m.last m.after)

/-- `r.sub(f, text)` for a function of the match. -/
def subWith (r : Regex) (f : Str → Str → Str) (text : Str) : Str :=
  replaceIter r f text.length none text

/-! ## Building patterns -/

/-- One or more, greedy. -/
def plus (r : Regex) : Regex := seq r (star true r)

/-- Zero or more, greedy. -/
def many (r : Regex) : Regex := star true r

/-- Zero or one, greedy. -/
def opt (r : Regex) : Regex := alt r eps

/-- At most `n` times, greedy. -/
def upTo (r : Regex) : ℕ → Regex
  | 0 => eps
  | n + 1 => opt (seq r (upTo r n))

/-- At least `n` times, greedy. -/
def atLeast (r : Regex) : ℕ → Regex
  | 0 => many r
  | n + 1 => seq r (atLeast r n)

/-- One pattern after the other. -/
def all : List Regex → Regex
  | [] => eps
  | [r] => r
  | r :: rs => seq r (all rs)

/-- One of several patterns, the first that leads through. -/
def any : List Regex → Regex
  | [] => char fun _ => false
  | [r] => r
  | r :: rs => alt r (any rs)

/-- A literal text, with the given equality of characters. -/
def lit (eq : Char → Char → Bool) (s : Str) : Regex := all (s.map fun c => char (eq c))

/-- `^` in multi-line mode. -/
def lineStart : Regex := look fun prev _ => prev = none || prev = some '\n'

/-- `^`. -/
def start : Regex := look fun prev _ => prev = none

/-- `$`. -/
def finish : Regex := look fun _ rest => rest = [] || rest = ['\n']

/-- `\b`. -/
def wordBoundary (isWord : Char → Bool) : Regex :=
  look fun prev rest => (prev.any isWord) != (rest.head?.any isWord)

end Regex
