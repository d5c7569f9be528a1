import Promisify.Syntax.Grammar.Statements

set_option autoImplicit false

/-! # Source files

`parse?` reads a whole text in a dialect. It gives the tree of the program, or the point at which
the text stops being the beginning of a program.
-/

namespace Promisify

open Promisify.Parser

/-- One step of the grammar: the rule of each phrase, given access to the phrases inside it. -/
def Grammar.rule (g : Grammar) : Goal → Parser
  | .expression c => g.expressionRule c
  | .type b => g.typeRule b
  | .statement => g.statementRule
  | .binding => g.bindingRule
  | .element => g.elementRule

/-- The grammar with phrases nested at most `fuel` deep. -/
def Grammar.reader (d : Dialect) : Nat → Goal → Parser
  | 0, _ => fail
  | fuel + 1, goal => Grammar.rule ⟨fuel, d, Grammar.reader d fuel⟩ goal

/-- Phrases of a text of `n` characters nest less deep than this. -/
def Grammar.depth (n : Nat) : Nat := 4 * n + 16

/-- The grammar for a text. -/
def Grammar.forText (d : Dialect) (t : Text) : Grammar :=
  let fuel := Grammar.depth t.length
  ⟨fuel, d, Grammar.reader d fuel⟩

/-- A first line that names an interpreter. -/
def hashBang : Parser := fun s =>
  match s.here with
  | '#' :: '!' :: _ =>
      let (taken, rest) := s.here.span (· != '\n')
      let stop := s.start + Text.size taken
      .ok [.leaf .hashBangLine s.start stop] (s.retake taken rest)
  | _ => .ok [] s

/-- A statement that is not part of another one. -/
def topStatement (d : Dialect) : Parser := afresh fun t => (Grammar.forText d t).statement

/-- A program: statements up to the end of the text. -/
def program (d : Dialect) (t : Text) : Parser :=
  all [hashBang, many (topStatement d) (Grammar.depth t.length), token .eof]

/-- A text with its tree. -/
structure SourceFile where
  text : Text
  root : Node

/-- The text of a node. -/
def SourceFile.textOf (f : SourceFile) (n : Node) : Text := (f.text.span? n.span).getD []

/-- Where the error is that being blocked shows: at the blocking token, or right after the token
before it when a closing parenthesis or bracket is missing. -/
def Blocked.offset (b : Blocked) : Nat := if b.closing then b.before else b.start

/-- Reads a text, or finds the first point where it is no program. -/
def parse? (d : Dialect) (t : Text) : Except Point SourceFile :=
  match program d t (State.initial t) with
  | .ok nodes s =>
      let root := Node.mk .program none 0 (Text.size t) nodes
      .ok ⟨t, s.comments.foldr Node.addComment root⟩
  | .stuck far => .error (Text.pointAt t far.offset)

end Promisify
