/-! Texts that are part of other texts. -/
namespace Intcode.Text

/-- Whether a text has another in it, from some place on. -/
def hasPart (part : List Char) : List Char → Bool
  | [] => part.isEmpty
  | c :: cs => part.isPrefixOf (c :: cs) || hasPart part cs

theorem hasPart_iff {part cs : List Char} : hasPart part cs = true ↔ part <:+: cs := by
  induction cs with
  | nil => simp [hasPart]
  | cons c cs ih => simp [hasPart, List.infix_cons_iff, ih]

end Intcode.Text
