/-!
# Styling codes

Text that does not go to a terminal is shown without the codes that set colours and the like on
one: an escape character, a bracket, numbers and semicolons, and a letter.
-/

namespace Ancestry.Text

/-- Whether a character can stand between the bracket and the letter of a styling code. -/
def isStylingParameter (c : Char) : Bool := c.isDigit || c = ';' || c = '?'

/-- The text after the styling code that comes next, if one does. -/
def afterStyling? : List Char → Option (List Char)
  | '\x1B' :: '[' :: rest =>
    match rest.dropWhile isStylingParameter with
    | c :: rest => if c.isAlpha then some rest else none
    | [] => none
  | _ => none

theorem length_afterStyling? {cs rest : List Char} (h : afterStyling? cs = some rest) :
    rest.length < cs.length := by
  unfold afterStyling? at h
  split at h
  · rename_i tail
    have hle := (List.dropWhile_suffix isStylingParameter (l := tail)).length_le
    split at h
    · rename_i heq
      split at h
      · injection h with h
        subst h
        rw [heq] at hle
        simp only [List.length_cons] at hle ⊢
        omega
      · simp at h
    · simp at h
  · simp at h

/-- The text without its styling codes. -/
def withoutStyling (cs : List Char) : List Char :=
  match _h : afterStyling? cs with
  | some rest => withoutStyling rest
  | none =>
    match cs with
    | [] => []
    | c :: rest => c :: withoutStyling rest
termination_by cs.length
decreasing_by
  · exact length_afterStyling? _h
  · simp

/-- The text as it is shown outside a terminal. -/
def plain (s : String) : String := String.ofList (withoutStyling s.toList)

end Ancestry.Text
