import Cadenza.Toml.Number
import Cadenza.Toml.Token

/-!
# TOML values

What may stand after an equals sign, read from the tokens of a text. Each reader gives what it read
and the tokens after it. Values stand inside of each other, so the readers of a value take a bound
on their steps; twice the number of tokens always is enough, since no two steps in a row go without
taking a token.
-/

namespace Cadenza.Toml

set_option autoImplicit false

/-- Dates are told apart from the rest, but not read further. A table is `dotted` if it stands for
the dots of a key, and not between braces. -/
inductive Value where
  | text (s : String)
  | integer (n : Int)
  | float (x : Float)
  | truth (b : Bool)
  | date
  | array (items : List Value)
  | table (dotted : Bool) (entries : List (String × Value))

def Value.sameKind : Value → Value → Bool
  | .text _, .text _ => true
  | .integer _, .integer _ => true
  | .float _, .float _ => true
  | .truth _, .truth _ => true
  | .date, .date => true
  | .array _, .array _ => true
  | .table a _, .table b _ => a == b
  | _, _ => false

def Token.isBlank : Token → Bool
  | .blank _ => true
  | _ => false

def skipBlanks (ts : List Token) : List Token :=
  ts.dropWhile Token.isBlank

theorem length_skip_blanks (ts : List Token) : (skipBlanks ts).length ≤ ts.length :=
  (List.dropWhile_sublist _).length_le

def skipGaps : List Token → Option (List Token)
  | .blank _ :: rest => skipGaps rest
  | .newline :: rest => skipGaps rest
  | .comment :: .newline :: rest => skipGaps rest
  | [.comment] => some []
  | .comment :: _ => none
  | ts => some ts

def skipMark? (mark : Token) : List Token → Option (List Token)
  | t :: rest => if t = mark then some rest else none
  | [] => none

def skipLineEnd? : List Token → Option (List Token)
  | .comment :: rest =>
      match rest with
      | [] => some []
      | rest => skipMark? .newline rest
  | [] => some []
  | ts => skipMark? .newline ts

/-- A key is a bare word, or a string that is neither empty nor on several lines. -/
def Token.key? : Token → Option String
  | .bare word => some (String.ofList word)
  | .quoted text false => if text.isEmpty then none else some (String.ofList text)
  | _ => none

def keys? (ts : List Token) : Option (List String × List Token) :=
  match ts with
  | [] => none
  | t :: rest => do
      let key ← t.key?
      match _ : skipBlanks rest with
      | .period :: more =>
          let (keys, after) ← keys? (skipBlanks more)
          some (key :: keys, after)
      | after => some ([key], after)
termination_by ts.length
decreasing_by
  have outer := length_skip_blanks rest
  have inner := length_skip_blanks more
  simp_all only [List.length_cons]
  omega

def entryKeys? (ts : List Token) : Option (List String × List Token) := do
  let (keys, after) ← keys? ts
  let rest ← skipMark? .equals after
  some (keys, skipBlanks rest)

def insert? : List String → Value → List (String × Value) → Option (List (String × Value))
  | [], _, _ => none
  | [key], value, entries => some (entries ++ [(key, value)])
  | key :: keys, value, entries =>
      match entries.findIdx? (·.1 == key) with
      | none => (insert? keys value []).map fun inner => entries ++ [(key, .table true inner)]
      | some i =>
          match entries[i]? with
          | some (_, .table true inner) =>
              (insert? keys value inner).map fun inner => entries.set i (key, .table true inner)
          | _ => none

def skipMarked? (mark : Token) (ts : List Token) : Option (List Token) :=
  match skipMark? mark ts with
  | none => some ts
  | some (.bare _ :: rest) => some rest
  | some _ => none

def skipHour : List Token → List Token
  | .blank true :: .bare _ :: rest => rest
  | ts => ts

def skipMinutes? : List Token → Option (List Token)
  | .bare _ :: .colon :: .bare _ :: rest => do
      let afterFraction ← skipMarked? .period rest
      let afterSign ← skipMarked? .plus afterFraction
      skipMarked? .colon afterSign
  | _ => none

def skipDate? (ts : List Token) : Option (List Token) :=
  match skipHour ts with
  | .colon :: rest => skipMinutes? rest
  | rest => some rest

def holdsMinusExponent : List Char → Bool
  | 'e' :: '-' :: _ => true
  | _ :: rest => holdsMinusExponent rest
  | [] => false

/-- A word with a `T`, or with a minus sign that is neither its first character nor that of an
exponent, starts a date. -/
def startsDate (word : List Char) : Bool :=
  word.contains 'T' || (word.drop 1).contains '-' && !holdsMinusExponent word

def wholeDigits? (word : List Char) : Option Nat := do
  let (digits, rest) ← digits? 10 false word
  if rest.isEmpty then some (natural 10 digits) else none

def isExponentMark (c : Char) : Bool :=
  c == 'e' || c == 'E'

/-- Reads an exponent after its mark. If the mark ends its word, the exponent is a word of its own,
and a plus sign may stand before it. -/
def exponent? : List Char → List Token → Option (Int × List Token)
  | [], .plus :: .bare word :: rest => (wholeDigits? word).map fun n => (n, rest)
  | [], .bare word :: rest => (wholeDigits? word).map fun n => (n, rest)
  | word, ts =>
      let (negative, body) := sign word
      (wholeDigits? body).map fun n => (signed negative n, ts)

/-- Reads what follows the digits in the last word of a decimal number. Without the mark of an
exponent it means nothing. -/
def suffix? (suffix : List Char) (ts : List Token) : Option (Int × List Token) :=
  match suffix with
  | [] => some (0, ts)
  | mark :: word => if isExponentMark mark then exponent? word ts else some (0, ts)

def float? (word : List Char) (fraction : Option (List Char)) (ts : List Token) :
    Option (Value × List Token) := do
  let (negative, body) := sign word
  let (whole, afterWhole) ← digits? 10 false body
  let (places, suffix) ←
    match fraction with
    | none => some ([], afterWhole)
    | some after => if afterWhole.isEmpty then digits? 10 true after else none
  let (exponent, rest) ← suffix? suffix ts
  let x ← decimal? negative whole places exponent
  some (.float x, rest)

def infinity : Float :=
  1.0 / 0.0

def notANumber : Float :=
  0.0 / 0.0

def wordNumber? (word : List Char) : Option Value :=
  match String.ofList word with
  | "inf" => some (.float infinity)
  | "-inf" => some (.float (-infinity))
  | "nan" => some (.float notANumber)
  | "-nan" => some (.float notANumber)
  | _ => (integer? 10 word).map Value.integer

def number? (word : List Char) (ts : List Token) : Option (Value × List Token) :=
  match word with
  | '0' :: 'x' :: digits => (integer? 16 digits).map fun n => (.integer n, ts)
  | '0' :: 'o' :: digits => (integer? 8 digits).map fun n => (.integer n, ts)
  | '0' :: 'b' :: digits => (integer? 2 digits).map fun n => (.integer n, ts)
  | word =>
      if word.any isExponentMark then float? word none ts
      else
        match ts with
        | .period :: .bare after :: rest => float? word (some after) rest
        | .period :: _ => none
        | ts => (wordNumber? word).map fun v => (v, ts)

def word? (word : List Char) (ts : List Token) : Option (Value × List Token) :=
  if word = "true".toList then some (.truth true, ts)
  else if word = "false".toList then some (.truth false, ts)
  else if startsDate word then (skipDate? ts).map fun rest => (.date, rest)
  else
    match ts with
    | .colon :: rest => (skipMinutes? (skipHour rest)).map fun after => (.date, after)
    | ts => number? word ts

mutual

def value? : Nat → List Token → Option (Value × List Token)
  | 0, _ => none
  | bound + 1, ts =>
      match ts with
      | .quoted text _ :: rest => some (.text (String.ofList text), rest)
      | .bare word :: rest => word? word rest
      | .plus :: .bare word :: rest => number? word rest
      | .leftBracket :: rest =>
          (items? bound [] rest).map fun (items, after) => (.array items, after)
      | .leftBrace :: rest =>
          match skipBlanks rest with
          | .rightBrace :: after => some (.table false [], after)
          | inside =>
              (entries? bound [] inside).map fun (entries, after) => (.table false entries, after)
      | _ => none

def items? : Nat → List Value → List Token → Option (List Value × List Token)
  | 0, _, _ => none
  | bound + 1, done, ts => do
      match ← skipGaps ts with
      | .rightBracket :: after => some (done, after)
      | inside =>
          let (v, rest) ← value? bound inside
          if done.getLast?.all v.sameKind then
            match ← skipGaps rest with
            | .comma :: more => items? bound (done ++ [v]) more
            | .rightBracket :: after => some (done ++ [v], after)
            | _ => none
          else none

/-- Reads the rest of a table between braces, after the entries `done`. No comma may stand before
the brace that closes it. -/
def entries? : Nat → List (String × Value) → List Token →
    Option (List (String × Value) × List Token)
  | 0, _, _ => none
  | bound + 1, done, ts => do
      let (keys, afterKeys) ← entryKeys? ts
      let (v, rest) ← value? bound afterKeys
      let entries ← insert? keys v done
      match skipBlanks rest with
      | .rightBrace :: after => some (entries, after)
      | .comma :: more => entries? bound entries (skipBlanks more)
      | _ => none

end

def readValue? (ts : List Token) : Option (Value × List Token) :=
  value? (2 * ts.length + 1) ts

end Cadenza.Toml
