import WorkflowEngine.Text.Case
import WorkflowEngine.Text.Width.Table

/-!
# Display width

The number of columns that a text takes on a screen with letters of one width.

## Main definitions

* `charWidth`: the columns of a character that stands alone
* `width`: the columns of a text
-/

namespace WorkflowEngine.Text

/-- The columns of a character that stands alone. -/
def charWidth (c : Char) : Nat :=
  let n := c.toNat
  if n < 0x300 then 1
  else if inRanges zeroRanges n then 0
  else if inRanges wideRanges n then 2
  else 1

/-- The mark that asks for the picture of the character before it. -/
def pictureMark : Char := '\ufe0f'

/-- The mark that joins two pictures into one. -/
def joiner : Char := '\u200d'

/-- A change of the skin of the picture before it. -/
def isSkinTone (c : Char) : Bool := 0x1f3fb ≤ c.toNat && c.toNat ≤ 0x1f3ff

/-- A character that has a picture if it is asked for. -/
def mayBePicture (c : Char) : Bool := 0x2000 < c.toNat && charWidth c == 1

/-- The columns of the characters after another one. -/
def widthAfter (before : Option Char) : List Char → Nat
  | [] => 0
  | c :: cs =>
    let own :=
      match before with
      | none => charWidth c
      | some b =>
        if b == joiner && charWidth c == 2 then 0
        else if isSkinTone c && charWidth b == 2 then 0
        else if c == pictureMark && mayBePicture b then 1
        else charWidth c
    own + widthAfter (some c) cs

/-- The columns of a text. -/
def width (s : String) : Nat := widthAfter none s.toList

end WorkflowEngine.Text
