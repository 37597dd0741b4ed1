import Ride.CodeLib.Utf8

/-!
# JSON texts

A parser for the texts of RFC 8259, as a function on bytes.  It has three parts.

* `unescape` reads what stands between the quotes of a string.
* The lexer is a machine that reads one byte at a time.  Its state is the token
  that it is in the middle of, and the tokens before.
* The parser is a machine that reads one token at a time.  Its state is the stack
  of the arrays and objects that are open.

Neither machine needs fuel.
-/

namespace CodeLib.Json

/-- A JSON value.  A number is kept as it is written. -/
inductive Value where
  | null
  | bool (value : Bool)
  | number (text : List UInt8)
  | string (text : List UInt8)
  | array (elements : List Value)
  | object (members : List (List UInt8 × Value))

/-- The value of a member.  Of several members with one name, the last one
counts. -/
def Value.get? (name : List UInt8) : Value → Option Value
  | .object members => members.reverse.lookup name
  | _ => none

/-! ## Strings -/

/-- A byte that stands for itself in a string: no control character, no quote and
no backslash. -/
def Plain (b : UInt8) : Prop := 32 ≤ b ∧ b ≠ 34 ∧ b ≠ 92

instance : DecidablePred Plain := fun _ => inferInstanceAs (Decidable (_ ∧ _))

/-- The two-character escapes. -/
def escape? (b : UInt8) : Option UInt8 :=
  [(34, 34), (92, 92), (47, 47), (98, 8), (102, 12), (110, 10), (114, 13),
    (116, 9)].lookup b

def hexDigit? (b : UInt8) : Option Nat :=
  if 48 ≤ b ∧ b ≤ 57 then some (b.toNat - 48)
  else if 97 ≤ b ∧ b ≤ 102 then some (b.toNat - 87)
  else if 65 ≤ b ∧ b ≤ 70 then some (b.toNat - 55)
  else none

/-- The UTF-16 code unit that four hexadecimal digits stand for. -/
def codeUnit? (a b c d : UInt8) : Option Nat := do
  let a ← hexDigit? a
  let b ← hexDigit? b
  let c ← hexDigit? c
  let d ← hexDigit? d
  return ((a * 16 + b) * 16 + c) * 16 + d

def IsHigh (unit : Nat) : Prop := 0xD800 ≤ unit ∧ unit < 0xDC00

def IsLow (unit : Nat) : Prop := 0xDC00 ≤ unit ∧ unit < 0xE000

instance : DecidablePred IsHigh := fun _ => inferInstanceAs (Decidable (_ ∧ _))

instance : DecidablePred IsLow := fun _ => inferInstanceAs (Decidable (_ ∧ _))

/-- A code point in UTF-8. -/
def encode (point : Nat) : List UInt8 :=
  String.utf8EncodeChar (Char.ofNat point)

/-- The replacement character U+FFFD in UTF-8. -/
def replacement : List UInt8 := [0xEF, 0xBF, 0xBD]

/-- A surrogate that has no partner becomes the replacement character. -/
def flush : Option Nat → List UInt8
  | none => []
  | some _ => replacement

/-- The bytes of a code unit on its own, and the high surrogate that now waits
for its partner. -/
def single (unit : Nat) : List UInt8 × Option Nat :=
  if IsHigh unit then ([], some unit)
  else if IsLow unit then (replacement, none)
  else (encode unit, none)

/-- The code point of two surrogates. -/
def pairPoint (high low : Nat) : Nat :=
  0x10000 + (high - 0xD800) * 0x400 + (low - 0xDC00)

/-- The bytes of a code unit behind a high surrogate, if there is one. -/
def unitBytes (high : Option Nat) (unit : Nat) : List UInt8 × Option Nat :=
  match high with
  | none => single unit
  | some first =>
    if IsLow unit then (encode (pairPoint first unit), none)
    else (replacement ++ (single unit).1, (single unit).2)

/-- What the bytes between two quotes stand for. -/
def unescape : List UInt8 → Option Nat → Option (List UInt8)
  | [], high => some (flush high)
  | b :: tail, high =>
    if Plain b then
      (unescape tail none).map fun text => flush high ++ b :: text
    else if b = 92 then
      match tail with
      | [] => none
      | kind :: rest =>
        if kind = 117 then
          match rest with
          | h₁ :: h₂ :: h₃ :: h₄ :: rest =>
            match codeUnit? h₁ h₂ h₃ h₄ with
            | some unit =>
              (unescape rest (unitBytes high unit).2).map fun text =>
                (unitBytes high unit).1 ++ text
            | none => none
          | _ => none
        else
          match escape? kind with
          | some byte =>
            (unescape rest none).map fun text => flush high ++ byte :: text
          | none => none
    else none

/-! ## The lexer -/

inductive Token where
  | beginObject
  | endObject
  | beginArray
  | endArray
  | nameSeparator
  | valueSeparator
  | null
  | bool (value : Bool)
  | number (text : List UInt8)
  | string (text : List UInt8)

def IsDigit (b : UInt8) : Prop := 48 ≤ b ∧ b ≤ 57

instance : DecidablePred IsDigit := fun _ => inferInstanceAs (Decidable (_ ∧ _))

def IsLetter (b : UInt8) : Prop := 97 ≤ b ∧ b ≤ 122

instance : DecidablePred IsLetter := fun _ => inferInstanceAs (Decidable (_ ∧ _))

/-- The part of a number that was read last. -/
inductive NumPart where
  | minus
  | zero
  | int
  | point
  | frac
  | e
  | sign
  | exp
deriving DecidableEq

def NumPart.step : NumPart → UInt8 → Option NumPart
  | .minus, b =>
    if b = 48 then some .zero else if IsDigit b then some .int else none
  | .zero, b =>
    if b = 46 then some .point
    else if b = 101 ∨ b = 69 then some .e else none
  | .int, b =>
    if IsDigit b then some .int else if b = 46 then some .point
    else if b = 101 ∨ b = 69 then some .e else none
  | .point, b => if IsDigit b then some .frac else none
  | .frac, b =>
    if IsDigit b then some .frac
    else if b = 101 ∨ b = 69 then some .e else none
  | .e, b =>
    if IsDigit b then some .exp
    else if b = 43 ∨ b = 45 then some .sign else none
  | .sign, b => if IsDigit b then some .exp else none
  | .exp, b => if IsDigit b then some .exp else none

/-- A number can end here. -/
def NumPart.final (part : NumPart) : Prop :=
  part = .zero ∨ part = .int ∨ part = .frac ∨ part = .exp

instance : DecidablePred NumPart.final := fun _ =>
  inferInstanceAs (Decidable (_ ∨ _))

/-- The token that the lexer is in the middle of.  In a string, the flag says that
the byte before was a backslash that begins an escape. -/
inductive Mode where
  | blank
  | string (raw : List UInt8) (escape : Bool)
  | number (part : NumPart) (text : List UInt8)
  | word (text : List UInt8)

structure Lexer where
  mode : Mode
  tokens : List Token

/-- The six structural characters. -/
def punctuation? (b : UInt8) : Option Token :=
  [(123, Token.beginObject), (125, .endObject), (91, .beginArray),
    (93, .endArray), (58, .nameSeparator), (44, .valueSeparator)].lookup b

/-- The three literal names. -/
def word? (text : List UInt8) : Option Token :=
  [([110, 117, 108, 108], Token.null), ([116, 114, 117, 101], .bool true),
    ([102, 97, 108, 115, 101], .bool false)].lookup text

namespace Lexer

/-- The first byte of a token, or white space. -/
def start (tokens : List Token) (b : UInt8) : Option Lexer :=
  if b ∈ [32, 9, 10, 13] then some ⟨.blank, tokens⟩
  else if b = 34 then some ⟨.string [] false, tokens⟩
  else if b = 45 then some ⟨.number .minus [b], tokens⟩
  else if b = 48 then some ⟨.number .zero [b], tokens⟩
  else if IsDigit b then some ⟨.number .int [b], tokens⟩
  else if IsLetter b then some ⟨.word [b], tokens⟩
  else (punctuation? b).map fun token => ⟨.blank, tokens ++ [token]⟩

/-- The tokens, where the last one ends here. -/
def finish (l : Lexer) : Option (List Token) :=
  match l.mode with
  | .blank => some l.tokens
  | .string _ _ => none
  | .number part text =>
    if part.final then some (l.tokens ++ [.number text]) else none
  | .word text => (word? text).map fun token => l.tokens ++ [token]

def step (l : Lexer) (b : UInt8) : Option Lexer :=
  match l.mode with
  | .blank => start l.tokens b
  | .string raw true => some ⟨.string (raw ++ [b]) false, l.tokens⟩
  | .string raw false =>
    if b = 34 then
      (unescape raw none).map fun text => ⟨.blank, l.tokens ++ [.string text]⟩
    else some ⟨.string (raw ++ [b]) (b = 92), l.tokens⟩
  | .number part text =>
    match part.step b with
    | some part => some ⟨.number part (text ++ [b]), l.tokens⟩
    | none => l.finish.bind fun tokens => start tokens b
  | .word text =>
    if IsLetter b then some ⟨.word (text ++ [b]), l.tokens⟩
    else l.finish.bind fun tokens => start tokens b

/-- The state after some bytes. -/
def run (l : Lexer) (text : List UInt8) : Option Lexer :=
  text.foldlM step l

end Lexer

/-- The tokens of a text. -/
def lex (text : List UInt8) : Option (List Token) :=
  (Lexer.run ⟨.blank, []⟩ text).bind Lexer.finish

/-! ## The parser -/

/-- An array or an object that is open.  An object waits for the value of the
name. -/
inductive Frame where
  | array (elements : List Value)
  | object (members : List (List UInt8 × Value)) (name : List UInt8)

/-- What the parser waits for: a value; a value or the end of an array; a name or
the end of an object; a name; the colon behind a name; or what may stand behind a
value. -/
inductive Parser where
  | value (stack : List Frame)
  | element (stack : List Frame)
  | member (stack : List Frame)
  | name (members : List (List UInt8 × Value)) (stack : List Frame)
  | colon (members : List (List UInt8 × Value)) (name : List UInt8)
      (stack : List Frame)
  | behind (value : Value) (stack : List Frame)

namespace Parser

/-- The first token of a value. -/
def start (stack : List Frame) : Token → Option Parser
  | .null => some (.behind .null stack)
  | .bool b => some (.behind (.bool b) stack)
  | .number text => some (.behind (.number text) stack)
  | .string text => some (.behind (.string text) stack)
  | .beginArray => some (.element stack)
  | .beginObject => some (.member stack)
  | _ => none

def step : Parser → Token → Option Parser
  | .value stack, token => start stack token
  | .element stack, .endArray => some (.behind (.array []) stack)
  | .element stack, token => start (.array [] :: stack) token
  | .member stack, .endObject => some (.behind (.object []) stack)
  | .member stack, .string key => some (.colon [] key stack)
  | .name members stack, .string key => some (.colon members key stack)
  | .colon members key stack, .nameSeparator =>
    some (.value (.object members key :: stack))
  | .behind v (.array elements :: stack), .valueSeparator =>
    some (.value (.array (elements ++ [v]) :: stack))
  | .behind v (.array elements :: stack), .endArray =>
    some (.behind (.array (elements ++ [v])) stack)
  | .behind v (.object members key :: stack), .valueSeparator =>
    some (.name (members ++ [(key, v)]) stack)
  | .behind v (.object members key :: stack), .endObject =>
    some (.behind (.object (members ++ [(key, v)])) stack)
  | _, _ => none

/-- The value, where everything is closed. -/
def finish : Parser → Option Value
  | .behind v [] => some v
  | _ => none

end Parser

def parseTokens (tokens : List Token) : Option Value :=
  (tokens.foldlM Parser.step (.value [])).bind Parser.finish

/-- The value of a JSON text, which is encoded in UTF-8. -/
def parse (text : List UInt8) : Option Value :=
  if Utf8 text then (lex text).bind parseTokens else none

end CodeLib.Json
