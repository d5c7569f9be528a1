import Promisify.Syntax.Grammar.Expressions

set_option autoImplicit false

/-! # Elements

Elements of TSX: a tag with attributes, children and a closing tag, or a tag that closes itself.
Names of tags and attributes may hold hyphens, and the text between tags is not made of tokens,
so both are read from the characters.
-/

namespace Promisify

namespace Grammar

open Promisify.Parser

variable (g : Grammar)

/-- Characters of the unit of a tag's name at the head of a text. -/
def tagNameUnit : Text → Nat
  | [] => 0
  | c :: _ => if Lexer.isNamePart c || c == '-' then 1 else 0

/-- A name that may hold hyphens, or a word when that reaches further: only words may hold
escapes. -/
def tagName : Parser := look fun s =>
  match s.tok with
  | .word _ => fun s =>
      let (taken, rest) := Text.munch tagNameUnit 0 s.here
      if s.start + Text.size taken < s.stop then leaf .jsxName s
      else .ok [.leaf .jsxName s.start (s.start + Text.size taken)] (s.retake taken rest)
  | _ => fail

/-- The name of a tag: names joined by dots, or by a colon. -/
def elementName : Parser :=
  all [tagName, opt (all [punct .colon, tagName]), g.star (all [punct .dot, tagName])]

/-- A string as the value of an attribute: it has no escapes and may hold line breaks. -/
def attributeString : Parser := fun s =>
  match s.here with
  | q :: cs =>
      if q == '"' || q == '\'' then
        match cs.span (· != q) with
        | (body, _ :: rest) =>
            let taken := q :: body ++ [q]
            .ok [.leaf .string s.start (s.start + Text.size taken)] (s.retake taken rest)
        | (_, []) => .stuck (s.blocked false)
      else .stuck (s.blocked false)
  | [] => .stuck (s.blocked false)

/-- An expression in braces, or a spread, or nothing. The text after the closing brace is left to
`after`, because it may not be made of tokens. -/
def braces (after : Nat → Text → Parser) : Parser := fun s =>
  let inside : Parser := all [punct .lbrace, look fun s =>
    match s.tok with
    | .punct .rbrace => pass []
    | .punct .ellipsis => node .spread (andThen (punct .ellipsis) g.inner)
    | _ => g.sequence .whole]
  match inside s with
  | .ok ns s' =>
      if s'.tok == .punct .rbrace then
        match after s'.stop s'.rest s' with
        | .ok ms s'' => .ok (.mk .jsxExpression none s.start s'.stop ns :: ms) s''
        | .stuck far => .stuck far
      else .stuck (s'.blocked false)
  | .stuck far => .stuck far

/-- Goes on with tokens at an offset. -/
def tokensFrom (pos : Nat) (raw : Text) : Parser := fun s => .ok [] (s.resume pos raw)

/-- An attribute, or a spread in braces. -/
def elementAttribute : Parser := look fun s =>
  match s.tok with
  | .punct .lbrace => g.braces tokensFrom
  | _ => node .jsxAttribute (all
      [tagName, opt (all [punct .colon, tagName]), opt (all [punct .assign, look fun s =>
        match s.tok with
        | .punct .lbrace => g.braces tokensFrom
        | .punct .lt => g.read .element
        | _ => attributeString])])

/-- Characters of the unit of text between tags. -/
def textUnit : Text → Nat
  | [] => 0
  | '&' :: cs =>
      let name := cs.takeWhile fun c => c.isAlphanum || c == '#'
      if name ≠ [] && cs[name.length]? = some ';' then name.length + 2 else 0
  | c :: _ => if c == '<' || c == '>' || c == '\x7b' || c == '\x7d' then 0 else 1

/-- The children of an element from the offset `pos` on, up to and including the closing tag;
`raw` is the text there. -/
def elementChildren : Nat → Nat → Text → Parser
  | 0, _, _ => fail
  | fuel + 1, pos, raw => fun s =>
      let (chars, after) := Text.munch textUnit 0 raw
      let here := pos + Text.size chars
      let text := if chars.isEmpty then [] else [Node.leaf .jsxText pos here]
      let t := s.resume here after
      let closing := all [punct .lt, punct .slash, opt g.elementName, look fun s =>
        if s.tok == .punct .gt then pass [] else fail]
      let rest : Parser :=
        match after with
        | '\x7b' :: _ => g.braces (elementChildren fuel)
        | '<' :: _ => look fun s =>
            match s.advance.tok with
            | .punct .slash => closing
            | _ => fun s =>
                match g.read .element s with
                | .ok ns s' =>
                    andThen (pass ns) (elementChildren fuel s'.prevStop s'.gap) s'.atGap
                | .stuck far => .stuck far
        | _ => fail
      andThen (pass text) rest t

/-- An element. Its last token, `>`, is read as one character: text may follow it. -/
def elementRule : Parser := fun s =>
  let start := s.start
  let opening := all [punct .lt, look fun s =>
    match s.tok with
    | .punct _ => pass []
    | _ => all [g.elementName, opt g.typeArguments, g.star g.elementAttribute]]
  match opening s with
  | .ok ns s' =>
      match s'.tok, s'.here with
      | .punct .slash, _ =>
          let t := s'.advance
          match t.here with
          | '>' :: rest =>
              .ok [.mk .jsxElement none start (t.start + 1) ns] (t.retake ['>'] rest)
          | _ => .stuck (t.blocked false)
      | .punct _, '>' :: rest =>
          match g.elementChildren g.fuel (s'.start + 1) rest s' with
          | .ok ms t =>
              match t.here with
              | '>' :: rest =>
                  .ok [.mk .jsxElement none start (t.start + 1) (ns ++ ms)] (t.retake ['>'] rest)
              | _ => .stuck (t.blocked false)
          | .stuck far => .stuck far
      | _, _ => .stuck (s'.blocked false)
  | .stuck far => .stuck far

end Grammar

end Promisify
