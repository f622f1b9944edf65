import Cadenza.Toml.Number

/-!
# TOML tokens

The words and marks of a TOML text. Blanks between them are kept, because a number or a date ends
where one stands. A line may end in a line feed or in a carriage return and a line feed.
-/

namespace Cadenza.Toml

set_option autoImplicit false

inductive Token where
  | newline
  | blank (single : Bool)
  | comment
  | equals
  | period
  | comma
  | colon
  | plus
  | leftBrace
  | rightBrace
  | leftBracket
  | rightBracket
  | bare (word : List Char)
  | quoted (text : List Char) (multiline : Bool)
  deriving DecidableEq, Repr

def foldLines : List Char → List Char
  | '\r' :: '\n' :: rest => '\n' :: foldLines rest
  | c :: rest => c :: foldLines rest
  | [] => []

def dropOrderMark : List Char → List Char
  | [] => []
  | c :: rest => if c = Char.ofNat 0xfeff then rest else c :: rest

def isBlankChar (c : Char) : Bool :=
  c == ' ' || c == '\t'

def isBareChar (c : Char) : Bool :=
  c.isAlphanum || c == '-' || c == '_'

def isCommentChar (c : Char) : Bool :=
  c == '\t' || decide (' ' ≤ c)

/-- The marks around a string: which one, and whether three of them close it. -/
structure Quotes where
  mark : Char
  multiline : Bool
  deriving DecidableEq, Repr

namespace Quotes

def escapes (q : Quotes) : Bool :=
  q.mark == '"'

def admits (q : Quotes) (c : Char) : Bool :=
  (decide (' ' ≤ c) && c != Char.ofNat 0x7f) || (c == '\t' && !q.escapes)

end Quotes

def coded? (digits : List Char) : Option Char := do
  let code ← digits.foldlM (fun code c => (digit? 16 c).map (16 * code + ·)) 0
  if code.isValidChar then some (Char.ofNat code) else none

def escaped? (c : Char) : Option Char :=
  match c with
  | '"' => some '"'
  | '\\' => some '\\'
  | 'b' => some (Char.ofNat 8)
  | 'f' => some (Char.ofNat 12)
  | 'n' => some '\n'
  | 'r' => some '\r'
  | 't' => some '\t'
  | _ => none

def before (c : Char) (read : Option (List Char × List Char)) : Option (List Char × List Char) :=
  read.map fun (text, rest) => (c :: text, rest)

/-- What a string passes over, after a backslash at the end of a line. -/
inductive Skip where
  | nothing
  /-- Blanks, and the line break that has to follow them. -/
  | toBreak
  /-- Blanks and line breaks. -/
  | gap
  deriving DecidableEq, Repr

/-- Reads a string up to the marks that close it: its text and what follows. On several lines, a
backslash before the end of a line, and before the blanks there, continues the text with the next
character that is neither a blank nor a line break. -/
def readString (q : Quotes) : Skip → List Char → Option (List Char × List Char)
  | _, [] => none
  | .toBreak, c :: rest =>
      if isBlankChar c then readString q .toBreak rest
      else if c == '\n' then readString q .gap rest
      else none
  | skip, c :: rest =>
      if skip == .gap && (isBlankChar c || c == '\n') then readString q .gap rest
      else if c == '\n' then
        if q.multiline then before c (readString q .nothing rest) else none
      else if c == q.mark then
        if !q.multiline then some ([], rest)
        else
          match rest with
          | second :: third :: after =>
              if second == q.mark && third == q.mark then some ([], after)
              else before c (readString q .nothing rest)
          | _ => none
      else if q.escapes && c == '\\' then
        match rest with
        | 'u' :: a :: b :: c :: d :: after =>
            (coded? [a, b, c, d]).bind fun x => before x (readString q .nothing after)
        | 'U' :: a :: b :: c :: d :: e :: f :: g :: h :: after =>
            (coded? [a, b, c, d, e, f, g, h]).bind fun x => before x (readString q .nothing after)
        | letter :: after =>
            if q.multiline && letter == '\n' then readString q .gap after
            else if q.multiline && isBlankChar letter then readString q .toBreak after
            else (escaped? letter).bind fun x => before x (readString q .nothing after)
        | [] => none
      else if q.admits c then before c (readString q .nothing rest)
      else none

theorem before_eq_some_iff {c : Char} {read : Option (List Char × List Char)}
    {text rest : List Char} :
    before c read = some (text, rest) ↔ ∃ inner, read = some (inner, rest) ∧ c :: inner = text := by
  cases read with
  | none => simp [before]
  | some pair => grind [before]

/-- A string takes at least the character that closes it. -/
theorem length_rest_of_read_string {q : Quotes} {skip : Skip} {cs text rest : List Char}
    (h : readString q skip cs = some (text, rest)) : rest.length < cs.length := by
  fun_induction readString q skip cs generalizing text <;>
    simp_all [before_eq_some_iff, Option.bind_eq_some_iff] <;> grind

def quotedToken? (q : Quotes) (cs : List Char) : Option (Token × List Char) :=
  match readString q .nothing cs with
  | some (text, rest) => some (.quoted text q.multiline, rest)
  | none => none

def dropBreak : List Char → List Char
  | '\n' :: rest => rest
  | cs => cs

theorem length_drop_break (cs : List Char) : (dropBreak cs).length ≤ cs.length := by
  fun_cases dropBreak cs <;> simp

/-- The token of a string, after its first mark. A line break right after the marks of a multiline
string is not part of it. -/
def stringToken? (mark : Char) : List Char → Option (Token × List Char)
  | second :: third :: rest =>
      if second == mark && third == mark then
        quotedToken? ⟨mark, true⟩ (dropBreak rest)
      else quotedToken? ⟨mark, false⟩ (second :: third :: rest)
  | cs => quotedToken? ⟨mark, false⟩ cs

theorem length_rest_of_quoted_token {q : Quotes} {cs rest : List Char} {token : Token}
    (h : quotedToken? q cs = some (token, rest)) : rest.length < cs.length := by
  unfold quotedToken? at h
  split at h
  · rename_i text after hread
    simp only [Option.some.injEq, Prod.mk.injEq] at h
    exact h.2 ▸ length_rest_of_read_string hread
  · simp at h

theorem length_rest_of_string_token {mark : Char} {cs rest : List Char} {token : Token}
    (h : stringToken? mark cs = some (token, rest)) : rest.length < cs.length := by
  unfold stringToken? at h
  split at h
  · rename_i second third body
    split at h
    · have after := length_rest_of_quoted_token h
      have inside := length_drop_break body
      simp only [List.length_cons]
      omega
    · exact length_rest_of_quoted_token h
  · exact length_rest_of_quoted_token h

def markToken? (c : Char) : Option Token :=
  match c with
  | '\n' => some .newline
  | '=' => some .equals
  | '.' => some .period
  | ',' => some .comma
  | ':' => some .colon
  | '+' => some .plus
  | '{' => some .leftBrace
  | '}' => some .rightBrace
  | '[' => some .leftBracket
  | ']' => some .rightBracket
  | _ => none

def tokenize : List Char → Option (List Token)
  | [] => some []
  | c :: rest =>
      if isBlankChar c then
        (tokenize (rest.dropWhile isBlankChar)).map
          (.blank (c == ' ' && !(rest.head?.any isBlankChar)) :: ·)
      else if c == '#' then
        (tokenize (rest.dropWhile isCommentChar)).map (.comment :: ·)
      else if c == '"' || c == '\'' then
        match _ : stringToken? c rest with
        | some (token, after) => (tokenize after).map (token :: ·)
        | none => none
      else if isBareChar c then
        (tokenize (rest.dropWhile isBareChar)).map (.bare (c :: rest.takeWhile isBareChar) :: ·)
      else
        match markToken? c with
        | some token => (tokenize rest).map (token :: ·)
        | none => none
termination_by cs => cs.length
decreasing_by
  all_goals simp only [List.length_cons]
  · exact Nat.lt_succ_of_le (List.dropWhile_sublist _).length_le
  · exact Nat.lt_succ_of_le (List.dropWhile_sublist _).length_le
  · exact Nat.lt_succ_of_lt (length_rest_of_string_token (by assumption))
  · exact Nat.lt_succ_of_le (List.dropWhile_sublist _).length_le
  · omega

def tokens? (text : String) : Option (List Token) :=
  tokenize (foldLines (dropOrderMark text.toList))

end Cadenza.Toml
