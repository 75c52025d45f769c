/-!
# Lines of a text

A line ends at a line feed; a carriage return right before the line feed belongs to the ending.  The
text after the last line feed is a line only if it is not empty, so the empty text has no lines and
a final line feed opens none.

The scanner of §4.1 of the specification reads such lines one by one.
-/

namespace Scriptlet.Text

def lines : List Char → List (List Char)
  | [] => []
  | '\n' :: rest => [] :: lines rest
  | '\r' :: '\n' :: rest => [] :: lines rest
  | c :: rest =>
    match lines rest with
    | [] => [[c]]
    | line :: more => (c :: line) :: more

end Scriptlet.Text
