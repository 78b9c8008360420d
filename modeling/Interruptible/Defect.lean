/-!
# Defects

A defect is an unexpected error: a message with zero or more layers of context wrapped around it. What a reader sees first
is the outermost layer, and two defects count as equal when that text is the same. A callback that panics becomes the
defect `Panic.defect`.
-/

namespace Interruptible

/-- An unexpected error: its outermost layer and the layers beneath it, from the outside in. -/
structure Defect where
  outer : String
  inner : List String := []
deriving Inhabited, Repr

namespace Defect

/-- A defect of one layer. -/
def msg (m : String) : Defect := { outer := m }

/-- Wraps a layer of context around a defect. -/
def context (d : Defect) (layer : String) : Defect := { outer := layer, inner := d.outer :: d.inner }

/-- What a defect shows: its outermost layer. -/
def display (d : Defect) : String := d.outer

/-- The layers of a defect, the outermost first. -/
def chain (d : Defect) : List String := d.outer :: d.inner

/-- All layers in one line. -/
def alternate (d : Defect) : String := ": ".intercalate d.chain

/-- The form that names the type. -/
def debug (d : Defect) : String := "Defect(" ++ d.display ++ ")"

/-- Defects are compared by what they show. -/
instance : BEq Defect := ⟨fun a b => a.display == b.display⟩

end Defect

/-- What a panicking callback leaves behind: a message, or something that is no text. -/
inductive Panic where
  | text (m : String)
  | nonText
deriving Inhabited, Repr, DecidableEq

namespace Panic

/-- The text of a panic, as it is shown to users. -/
def display : Panic → String
  | .text m => "panicked: " ++ m
  | .nonText => "panicked: non-string panic payload"

/-- A panic is reported as a defect of one layer. -/
def defect (p : Panic) : Defect := Defect.msg p.display

end Panic

end Interruptible
