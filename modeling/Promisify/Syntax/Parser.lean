import Promisify.Syntax.Lexer
import Promisify.Syntax.Node

set_option autoImplicit false

/-! # Parsers

A parser reads tokens from a `State` and contributes a list of nodes to the node being built.
A failed alternative leaves no trace but one: the furthest token at which any alternative was
stuck, which is where the text stops being the beginning of a program.
-/

namespace Promisify

/-- The furthest token that could not be read: where it starts, where the token before it ends,
and whether a closing parenthesis or bracket could have stood there. -/
structure Blocked where
  start : Nat
  before : Nat
  closing : Bool
  deriving DecidableEq, Repr, Inhabited

/-- The further of two blocks. -/
def Blocked.max (a b : Blocked) : Blocked :=
  if a.start < b.start then b
  else if b.start < a.start then a
  else ⟨a.start, a.before, a.closing || b.closing⟩

/-- The same block with its bytes counted from `k` bytes further back. -/
def Blocked.shift (k : Nat) (b : Blocked) : Blocked := ⟨k + b.start, k + b.before, b.closing⟩

/-- A place between two tokens: the end of the last token read, the token to be read next, and
the texts after both. -/
structure State where
  /-- Where the last token ended. -/
  prevStop : Nat
  /-- The text right after the last token. -/
  gap : Text
  /-- The next token. -/
  tok : Token
  /-- Where the next token starts. -/
  start : Nat
  /-- The text from the next token on. -/
  here : Text
  /-- Where the next token ends. -/
  stop : Nat
  /-- The text after the next token. -/
  rest : Text
  /-- The comments read so far, the last one first. -/
  comments : List Span
  /-- The furthest token that could not be read. -/
  far : Blocked

namespace State

/-- The place after a token that ended at `pos`, with `gap` the text after it. -/
def resume (s : State) (pos : Nat) (gap : Text) : State :=
  let (skipped, here) := Lexer.trivia gap
  let start := pos + Text.size skipped
  let scanned := Lexer.scan here
  { prevStop := pos, gap := gap, tok := scanned.token, start := start, here := here,
    stop := start + Text.size scanned.taken, rest := scanned.rest,
    comments := (Lexer.commentSpans pos 0 0 skipped).reverse ++ s.comments, far := s.far }

/-- The place after the next token. -/
def advance (s : State) : State := s.resume s.stop s.rest

/-- The place before the first token of a text. -/
def initial (t : Text) : State :=
  let zero : State :=
    { prevStop := 0, gap := t, tok := .eof, start := 0, here := t, stop := 0, rest := t,
      comments := [], far := ⟨0, 0, false⟩ }
  zero.resume 0 t

/-- The place after a token that was read from the text of the next token in another way:
`taken` is what it covers and `rest` what follows. -/
def retake (s : State) (taken rest : Text) : State :=
  s.resume (s.start + Text.size taken) rest

/-- The same place with nothing read after the last token, for text that is not made of
tokens. -/
def atGap (s : State) : State :=
  { s with comments := s.comments.filter fun c => c.stop ≤ s.prevStop }

/-- The place `s'` of the text from the next token on, as a place of the whole text. -/
def onward (s s' : State) : State :=
  { s' with
    prevStop := s.start + s'.prevStop
    start := s.start + s'.start
    stop := s.start + s'.stop
    comments := s'.comments.map (Span.shift s.start) ++ s.comments
    far := s.far.max (s'.far.shift s.start) }

/-- Being stuck at the next token. -/
def blocked (s : State) (closing : Bool) : Blocked :=
  s.far.max ⟨s.start, s.prevStop, closing⟩

end State

/-- What a parser comes to. -/
inductive Outcome where
  | ok (nodes : List Node) (s : State)
  | stuck (far : Blocked)

/-- A parser. -/
abbrev Parser := State → Outcome

namespace Parser

/-- Reads nothing and contributes nodes. -/
def pass (nodes : List Node) : Parser := fun s => .ok nodes s

/-- Cannot read the next token. -/
def fail : Parser := fun s => .stuck (s.blocked false)

/-- One parser after another. -/
def andThen (p q : Parser) : Parser := fun s =>
  match p s with
  | .ok ns s' =>
      match q s' with
      | .ok ms s'' => .ok (ns ++ ms) s''
      | .stuck far => .stuck far
  | .stuck far => .stuck far

/-- Parsers one after another. -/
def all : List Parser → Parser
  | [] => pass []
  | [p] => p
  | p :: ps => andThen p (all ps)

/-- The first parser, or the second when the first is stuck. -/
def orElse (p q : Parser) : Parser := fun s =>
  match p s with
  | .ok ns s' => .ok ns s'
  | .stuck far => q { s with far := far }

/-- The first of the parsers that is not stuck. -/
def any : List Parser → Parser
  | [] => fail
  | [p] => p
  | p :: ps => orElse p (any ps)

/-- A parser or nothing. -/
def opt (p : Parser) : Parser := orElse p (pass [])

/-- A parser as often as it reads something, at most `fuel` times. -/
def many (p : Parser) : Nat → Parser
  | 0 => pass []
  | fuel + 1 => fun s =>
      match p s with
      | .ok ns s' =>
          if s'.start ≤ s.start && s'.prevStop ≤ s.prevStop then .ok ns s'
          else
            match many p fuel s' with
            | .ok ms s'' => .ok (ns ++ ms) s''
            | .stuck far => .stuck far
      | .stuck far => .ok [] { s with far := far }

/-- A choice made by looking at the place. -/
def look (f : State → Parser) : Parser := fun s => f s s

/-- A parser whose contribution is one node, followed by a parser that is given the node and
contributes in its place. -/
def withNode (p : Parser) (f : Node → Parser) : Parser := fun s =>
  match p s with
  | .ok [n] s' => f n s'
  | .ok _ s' => .stuck (s'.blocked false)
  | .stuck far => .stuck far

/-- Reads as `p` does and contributes a node of kind `k` over what was read. -/
def node (k : Kind) (p : Parser) : Parser := fun s =>
  match p s with
  | .ok ns s' => .ok [.mk k none s.start s'.prevStop ns] s'
  | .stuck far => .stuck far

/-- Continues the node `left`: reads as `p` does and contributes a node of kind `k` over `left`
and what was read. -/
def extend (k : Kind) (left : Node) (p : Parser) : Parser := fun s =>
  match p s with
  | .ok ns s' => .ok [.mk k none left.start s'.prevStop (left :: ns)] s'
  | .stuck far => .stuck far

/-- Gives the nodes of `p` the role `f`. -/
def role (f : Field) (p : Parser) : Parser := fun s =>
  match p s with
  | .ok ns s' => .ok (ns.map (Node.withField (some f))) s'
  | .stuck far => .stuck far

/-- Reads the text from the next token on as a text of its own, with the parser for that text:
what comes of it does not depend on the text before. -/
def afresh (p : Text → Parser) : Parser := fun s =>
  match p s.here (State.initial s.here) with
  | .ok ns s' => .ok (Node.shiftAll s.start ns) (s.onward s')
  | .stuck far => .stuck (s.far.max (far.shift s.start))

/-! ## Tokens -/

/-- Reads the token `t`. -/
def token (t : Token) : Parser := fun s =>
  if s.tok == t then .ok [] s.advance
  else .stuck (s.blocked (t == .punct .rparen || t == .punct .rbracket))

/-- Reads the punctuation `p`. -/
def punct (p : Punct) : Parser := token (.punct p)

/-- Reads the word `w`. -/
def word (w : Word) : Parser := token (.word w)

/-- Reads one of the words. -/
def oneWord (ws : List Word) : Parser := look fun s =>
  match s.tok with
  | .word w => if ws.contains w then token s.tok else fail
  | _ => fail

/-- Reads the next token, whatever it is, as a node of kind `k`. -/
def leaf (k : Kind) : Parser := fun s =>
  .ok [.leaf k s.start s.stop] s.advance

/-- Reads any word as a node of kind `k`. -/
def name (k : Kind) : Parser := look fun s =>
  match s.tok with
  | .word _ => leaf k
  | _ => fail

/-- Reads the token `t` as a node of kind `k`. -/
def tokenAs (k : Kind) (t : Token) : Parser := look fun s =>
  if s.tok == t then leaf k else fail

/-- Reads one closing angle bracket, also when it begins a longer token. -/
def closeAngle : Parser := fun s =>
  match s.tok, s.here with
  | .punct .gt, _ => .ok [] s.advance
  | .punct _, '>' :: rest => .ok [] (s.retake ['>'] rest)
  | _, _ => .stuck (s.blocked false)

/-- Items separated by commas; at least one. -/
def commaSep (item : Parser) (fuel : Nat) : Parser :=
  andThen item (many (andThen (punct .comma) item) fuel)

/-- Items separated by commas, each of which may be missing. -/
def commaHoles (item : Parser) (fuel : Nat) : Parser :=
  andThen (opt item) (many (andThen (punct .comma) (opt item)) fuel)

/-- No item, or items separated by commas, and a last comma if there is one. -/
def commaList (item : Parser) (fuel : Nat) : Parser :=
  opt (andThen (commaSep item fuel) (opt (punct .comma)))

/-! ## The end of a statement -/

/-- Reads a semicolon, or stops where the line or the block ends the statement. -/
def semicolon (b : Lexer.Border) : Parser := fun s =>
  if s.tok == .punct .semi then .ok [] s.advance
  else
    match Lexer.lineEnd? b s.prevStop s.gap with
    | some (pos, gap) => .ok [] { s with prevStop := pos, gap := gap }
    | none => .stuck (s.blocked false)

/-- Whether the line or the block ends the statement here. -/
def atLineEnd (b : Lexer.Border) (s : State) : Bool :=
  (Lexer.lineEnd? b s.prevStop s.gap).isSome

end Parser

end Promisify
