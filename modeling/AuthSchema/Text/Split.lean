/-!
Cutting a text at a separator, and its lines.
-/
namespace AuthSchema.Text

/-- The pieces of a text between the occurrences of a separator: one more than there are. -/
def split (separator : Char) : List Char → List (List Char)
  | [] => [[]]
  | c :: rest =>
    match split separator rest with
    | [] => [[c]]
    | piece :: pieces => if c = separator then [] :: piece :: pieces else (c :: piece) :: pieces

def withoutReturn (line : List Char) : List Char :=
  match line.reverse with
  | '\r' :: rest => rest.reverse
  | _ => line

/-- The lines of a text. A line ends with a newline, and one carriage return before that newline
belongs to the line end; a last line without newline counts when it is not empty. -/
def lines (s : List Char) : List (List Char) :=
  let pieces := split '\n' s
  pieces.dropLast.map withoutReturn ++ (pieces.getLast?.toList.filter fun l => !l.isEmpty)

end AuthSchema.Text
