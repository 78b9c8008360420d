/-!
# Readers

A reader takes characters from the front of a text and either gives a result and what is left, or refuses. Readers for the
configuration formats are built from these. Repetition is bounded by the length of the text, so every reader ends.
-/

namespace Interruptible.Text

/-- A reader of a text. -/
abbrev Reader := StateT (List Char) Option

namespace Reader

variable {α β : Type}

/-- Refuses the text. -/
def refuse : Reader α := failure

/-- What is left of the text. -/
def rest : Reader (List Char) := get

/-- The next character, which stays where it is. -/
def peek : Reader (Option Char) := do return (← get).head?

/-- A character that satisfies a condition. -/
def satisfy (p : Char → Bool) : Reader Char := do
  match ← get with
  | c :: rest =>
    if p c then
      set rest
      return c
    else refuse
  | [] => refuse

/-- A given character. -/
def char (c : Char) : Reader Unit := do
  let _ ← satisfy (· == c)

/-- A given word. -/
def word (s : String) : Reader Unit := s.toList.forM char

/-- The longest run of characters that satisfy a condition. -/
def span (p : Char → Bool) : Reader (List Char) := do
  let (taken, rest) := (← get).span p
  set rest
  return taken

/-- Like `span`, for at least one character. -/
def span1 (p : Char → Bool) : Reader (List Char) := do
  match ← span p with
  | [] => refuse
  | taken => return taken

/-- Skips characters that satisfy a condition. -/
def skip (p : Char → Bool) : Reader Unit := do
  let _ ← span p

/-- Succeeds at the end of the text only. -/
def atEnd : Reader Unit := do
  if (← get).isEmpty then return () else refuse

/-- What a reader gives, if it accepts. -/
def optional (r : Reader α) : Reader (Option α) := (some <$> r) <|> return none

/-- Whether a reader accepts; what it accepts is taken. -/
def accepts (r : Reader Unit) : Reader Bool := (do r; return true) <|> return false

/-- At most `n` times. -/
def upTo (r : Reader α) : Nat → Reader (List α)
  | 0 => return []
  | n + 1 => do
    match ← optional r with
    | none => return []
    | some a => return a :: (← upTo r n)

/-- As often as a reader accepts. -/
def many (r : Reader α) : Reader (List α) := do upTo r ((← get).length + 1)

/-- Items with separators between them, at least one item. -/
def sepBy1 (r : Reader α) (sep : Reader Unit) : Reader (List α) := do
  let first ← r
  return first :: (← many (do sep; r))

/-- Exactly `n` characters that satisfy a condition. -/
def exactly (p : Char → Bool) : Nat → Reader (List Char)
  | 0 => return []
  | n + 1 => do
    let c ← satisfy p
    return c :: (← exactly p n)

/-- The result of a reader that accepts the whole text. -/
def readAll (r : Reader α) (s : String) : Option α :=
  (do let a ← r; atEnd; return a : Reader α).run s.toList |>.map (·.1)

end Reader

/-! ## Characters -/

/-- Whether a character is an ASCII digit. -/
def isDigit (c : Char) : Bool := '0' ≤ c && c ≤ '9'

/-- The value of a hexadecimal digit. -/
def hexValue? (c : Char) : Option Nat :=
  if '0' ≤ c && c ≤ '9' then some (c.toNat - '0'.toNat)
  else if 'a' ≤ c && c ≤ 'f' then some (c.toNat - 'a'.toNat + 10)
  else if 'A' ≤ c && c ≤ 'F' then some (c.toNat - 'A'.toNat + 10)
  else none

/-- Whether a character is a hexadecimal digit. -/
def isHex (c : Char) : Bool := (hexValue? c).isSome

/-- The number that digits stand for in a base; characters that are no digits count as zero. -/
def numberOf (base : Nat) (digits : List Char) : Nat :=
  digits.foldl (fun n c => n * base + (hexValue? c).getD 0) 0

/-- The character of a code point, unless it is a surrogate or too large. -/
def charOf? (n : Nat) : Option Char :=
  if n.isValidChar then some (Char.ofNat n) else none

/-- A text with its ASCII capitals made small. -/
def lower (s : String) : String := s.map Char.toLower

end Interruptible.Text
