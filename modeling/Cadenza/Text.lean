import Cadenza.Text.Shapeless

/-!
# Text

How text is padded, quoted and split.
-/

namespace Cadenza.Text

set_option autoImplicit false

/-!
## Padding

A text that is wider already stays as it is.
-/

def padLeft (fill : Char) (width : Nat) (s : String) : String :=
  String.ofList (List.replicate (width - s.length) fill) ++ s

def padRight (fill : Char) (width : Nat) (s : String) : String :=
  s ++ String.ofList (List.replicate (width - s.length) fill)

/-!
## Quoting

A text inside a message is written between double quotes, so that its ends can be seen: the quote
and the backslash are escaped, the common controls have letters, and every other character that has
no shape of its own is written as its code point in braces.
-/

def hexDigits (n : Nat) : List Char :=
  Nat.toDigits 16 n

def escapeChar (c : Char) : List Char :=
  match c with
  | '\x00' => ['\\', '0']
  | '\t' => ['\\', 't']
  | '\r' => ['\\', 'r']
  | '\n' => ['\\', 'n']
  | '"' => ['\\', '"']
  | '\\' => ['\\', '\\']
  | c => if isShapeless c then ['\\', 'u', '\x7b'] ++ hexDigits c.toNat ++ ['\x7d'] else [c]

def quoted (s : String) : String :=
  String.ofList ('"' :: (s.toList.flatMap escapeChar ++ ['"']))

/-!
## Places

A place in a text is counted in bytes. A text can be split only where a character begins or where it
ends.
-/

def charOffsets : Nat → List Char → List (Nat × Char)
  | _, [] => []
  | start, c :: rest => (start, c) :: charOffsets (start + c.utf8Size) rest

/-- Splits a text at a place; nothing if that is inside a character or behind the text. -/
def splitAt? (s : String) (place : Nat) : Option (String × String) :=
  if valid : String.Pos.Raw.IsValid s ⟨place⟩ then
    let border : s.Pos := ⟨⟨place⟩, valid⟩
    some ((s.sliceTo border).copy, (s.sliceFrom border).copy)
  else none

theorem split_at_append (first later : String) :
    splitAt? (first ++ later) first.utf8ByteSize = some (first, later) := by
  have valid : String.Pos.Raw.IsValid (first ++ later) ⟨first.utf8ByteSize⟩ :=
    String.Pos.Raw.isValid_iff_exists_append.2 ⟨first, later, rfl, rfl⟩
  have splits : (⟨⟨first.utf8ByteSize⟩, valid⟩ : (first ++ later).Pos).Splits first later :=
    ⟨rfl, rfl⟩
  rw [splitAt?, dif_pos valid]
  exact congrArg some (Prod.ext splits.copy_sliceTo_eq splits.copy_sliceFrom_eq)

theorem byte_size_cons (c : Char) (rest : List Char) :
    (String.ofList (c :: rest)).utf8ByteSize = c.utf8Size + (String.ofList rest).utf8ByteSize := by
  rw [String.ofList_cons, String.utf8ByteSize_append, String.utf8ByteSize_singleton]

/-- The first character that a test turns down begins where those that it lets pass end. -/
theorem offset_of_first_refused (test : Char → Bool) (start : Nat) (text : List Char) :
    ((charOffsets start text).find? fun o => !test o.2).elim
        (start + (String.ofList text).utf8ByteSize) (·.1) =
      start + (String.ofList (text.takeWhile test)).utf8ByteSize := by
  induction text generalizing start with
  | nil => rfl
  | cons c rest ih =>
      cases passed : test c with
      | true =>
          rw [charOffsets, List.find?_cons_of_neg (by simp [passed]), byte_size_cons,
            List.takeWhile_cons_of_pos passed, byte_size_cons, ← Nat.add_assoc, ← Nat.add_assoc]
          exact ih (start + c.utf8Size)
      | false =>
          rw [charOffsets, List.find?_cons_of_pos (by simp [passed]),
            List.takeWhile_cons_of_neg (by simp [passed])]
          rfl

end Cadenza.Text
