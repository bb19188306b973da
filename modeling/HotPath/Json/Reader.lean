/-
  HotPath.Json.Reader

  Reading JSON text. Characters are grouped into tokens by a machine that takes
  one character at a time, and tokens into a document by a machine that keeps
  the open containers on a stack, so that reading takes no more room for deep
  documents than for wide ones.

  The grammar is the strict one: no comments, no trailing commas, four blank
  characters, escaped control characters, and nothing after the document.
-/
import HotPath.Json.Basic
import HotPath.Json.Number

namespace HotPath.Json

/-! ## Tokens -/

/-- The smallest parts of a document. -/
inductive Token where
  | beginArr
  | endArr
  | beginObj
  | endObj
  | comma
  | colon
  | null
  | bool (b : Bool)
  | num (lexeme : String)
  | str (raw : String)
  deriving DecidableEq

/-- What the lexer is in the middle of. Characters read are in reverse. -/
inductive Lexer.Mode where
  | idle
  /-- Inside a number or a word. -/
  | bare (done : List Char)
  /-- Inside a string. -/
  | quoted (done : List Char)
  /-- Inside a string, after a backslash. -/
  | escaped (done : List Char)
  /-- Inside a string, with hexadecimal digits still to come. -/
  | hex (more : Nat) (done : List Char)

/-- The lexer: its mode, and the tokens read so far in reverse. -/
structure Lexer where
  mode : Lexer.Mode
  tokens : List Token

namespace Lexer

/-- The four blank characters. -/
def isBlank (c : Char) : Bool :=
  c == ' ' || c == '\t' || c == '\n' || c == '\r'

/-- The token of a punctuation character. -/
def punctuation? : Char → Option Token
  | '[' => some .beginArr
  | ']' => some .endArr
  | '\x7b' => some .beginObj
  | '\x7d' => some .endObj
  | ',' => some .comma
  | ':' => some .colon
  | _ => none

/-- The token of a bare word, given in reverse. -/
def word? (done : List Char) : Option Token :=
  let cs := done.reverse
  if cs = ['n', 'u', 'l', 'l'] then some .null
  else if cs = ['t', 'r', 'u', 'e'] then some (.bool true)
  else if cs = ['f', 'a', 'l', 's', 'e'] then some (.bool false)
  else if Number.isNumber cs then some (.num (String.ofList cs))
  else none

/-- Whether a character may follow a backslash, the `u` apart. -/
def isEscape (c : Char) : Bool :=
  c == '"' || c == '\\' || c == '/' || c == 'b' || c == 'f' || c == 'n' || c == 'r' || c == 't'

/-- Whether a character is a hexadecimal digit. -/
def isHex (c : Char) : Bool :=
  c.isDigit || (decide ('a' ≤ c) && decide (c ≤ 'f')) || (decide ('A' ≤ c) && decide (c ≤ 'F'))

/-- A character outside of words and strings. -/
def pushIdle (tokens : List Token) (c : Char) : Lexer :=
  if isBlank c then ⟨.idle, tokens⟩
  else if c = '"' then ⟨.quoted [], tokens⟩
  else match punctuation? c with
    | some t => ⟨.idle, t :: tokens⟩
    | none => ⟨.bare [c], tokens⟩

/-- Whether a character ends a bare word. -/
def endsWord (c : Char) : Bool :=
  isBlank c || c == '"' || (punctuation? c).isSome

/-- Takes one character. -/
def push (s : Lexer) (c : Char) : Option Lexer :=
  match s.mode with
  | .idle => some (pushIdle s.tokens c)
  | .bare done =>
    if endsWord c then (word? done).map (fun t => pushIdle (t :: s.tokens) c)
    else some ⟨.bare (c :: done), s.tokens⟩
  | .quoted done =>
    if c = '"' then some ⟨.idle, .str (String.ofList done.reverse) :: s.tokens⟩
    else if c = '\\' then some ⟨.escaped (c :: done), s.tokens⟩
    else if c.toNat < 32 then none
    else some ⟨.quoted (c :: done), s.tokens⟩
  | .escaped done =>
    if c = 'u' then some ⟨.hex 3 (c :: done), s.tokens⟩
    else if isEscape c then some ⟨.quoted (c :: done), s.tokens⟩
    else none
  | .hex more done =>
    if isHex c then
      match more with
      | 0 => some ⟨.quoted (c :: done), s.tokens⟩
      | n + 1 => some ⟨.hex n (c :: done), s.tokens⟩
    else none

/-- The tokens read, if the text may end here. -/
def finish (s : Lexer) : Option (List Token) :=
  match s.mode with
  | .idle => some s.tokens.reverse
  | .bare done => (word? done).map (fun t => (t :: s.tokens).reverse)
  | _ => none

/-- The lexer at the beginning of a text. -/
def start : Lexer := ⟨.idle, []⟩

/-- Takes all characters of a text, one after the other. -/
def pushAll : Lexer → List Char → Option Lexer
  | s, [] => some s
  | s, c :: cs =>
    match s.push c with
    | some t => pushAll t cs
    | none => none

end Lexer

/-- The tokens of a text. -/
def tokens? (text : String) : Option (List Token) :=
  (Lexer.start.pushAll text.toList).bind Lexer.finish

/-! ## Documents -/

/-- A container that is still open, with its parts in reverse. -/
inductive Parser.Layer where
  | arr (items : List Json)
  /-- An object that waits for the value of `key`. -/
  | obj (members : List (String × Json)) (key : String)

/-- What the parser waits for, inside a stack of open containers. -/
inductive Parser where
  | needValue (stack : List Parser.Layer)
  /-- Directly after an opening bracket: a value or the end. -/
  | firstItem (stack : List Parser.Layer)
  /-- Directly after an opening brace: a key or the end. -/
  | firstKey (stack : List Parser.Layer)
  | needKey (stack : List Parser.Layer) (members : List (String × Json))
  | needColon (stack : List Parser.Layer) (members : List (String × Json)) (key : String)
  /-- A value is complete. -/
  | complete (stack : List Parser.Layer) (value : Json)

namespace Parser

/-- A token where a value has to begin. -/
def beginValue (stack : List Layer) : Token → Option Parser
  | .beginArr => some (.firstItem stack)
  | .beginObj => some (.firstKey stack)
  | .null => some (.complete stack .null)
  | .bool b => some (.complete stack (.bool b))
  | .num lexeme => some (.complete stack (.num lexeme))
  | .str raw => some (.complete stack (.str raw))
  | _ => none

/-- A token after a complete value. -/
def afterValue (value : Json) : List Layer → Token → Option Parser
  | .arr items :: stack, .comma => some (.needValue (.arr (value :: items) :: stack))
  | .arr items :: stack, .endArr => some (.complete stack (.arr (value :: items).reverse))
  | .obj members key :: stack, .comma => some (.needKey stack ((key, value) :: members))
  | .obj members key :: stack, .endObj =>
    some (.complete stack (.obj ((key, value) :: members).reverse))
  | _, _ => none

/-- Takes one token. -/
def push : Parser → Token → Option Parser
  | .needValue stack, t => beginValue stack t
  | .firstItem stack, .endArr => some (.complete stack (.arr []))
  | .firstItem stack, t => beginValue (.arr [] :: stack) t
  | .firstKey stack, .endObj => some (.complete stack (.obj []))
  | .firstKey stack, .str key => some (.needColon stack [] key)
  | .needKey stack members, .str key => some (.needColon stack members key)
  | .needColon stack members key, .colon => some (.needValue (.obj members key :: stack))
  | .complete stack value, t => afterValue value stack t
  | _, _ => none

/-- Takes all tokens, one after the other. -/
def pushAll : Parser → List Token → Option Parser
  | s, [] => some s
  | s, t :: ts =>
    match s.push t with
    | some u => pushAll u ts
    | none => none

/-- The document, if it is complete. -/
def finish : Parser → Option Json
  | .complete [] value => some value
  | _ => none

end Parser

/-- The document that a text spells, if it is one. -/
def parse? (text : String) : Option Json :=
  (tokens? text).bind (fun ts => ((Parser.needValue []).pushAll ts).bind Parser.finish)

end HotPath.Json
