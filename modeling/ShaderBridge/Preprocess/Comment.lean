import ShaderBridge.Text.Chars
import ShaderBridge.Text.Span

namespace ShaderBridge

/-- Blanks that take as many bytes as the text, with its line feeds in place. -/
def blanked (cs : List Char) : List Char :=
  cs.flatMap fun c => if c = '\n' then ['\n'] else List.replicate c.utf8Size ' '

/-- Blanks out all comments of a text that starts at the given offset. The error is the span of a
comment that does not end. -/
def stripComments (offset : Nat) (cs : List Char) : Except Span (List Char) :=
  match cs with
  | [] => .ok []
  | '/' :: '/' :: rest =>
    let comment := rest.takeWhile (· != '\n')
    (blanked ('/' :: '/' :: comment) ++ ·) <$>
      stripComments (offset + 2 + byteLength comment) (rest.dropWhile (· != '\n'))
  | '/' :: '*' :: rest =>
    match h : cutAt? ['*', '/'] rest with
    | none => .error ⟨offset, offset + 2 + byteLength rest⟩
    | some (comment, rest) =>
      (blanked ('/' :: '*' :: (comment ++ ['*', '/'])) ++ ·) <$>
        stripComments (offset + 4 + byteLength comment) rest
  | c :: rest => (c :: ·) <$> stripComments (offset + c.utf8Size) rest
termination_by cs.length
decreasing_by
  · have : (rest.dropWhile (· != '\n')).length ≤ rest.length :=
      (List.dropWhile_sublist _).length_le
    simp; omega
  · have := length_of_cutAt? h
    simp at this ⊢; omega
  · simp

end ShaderBridge
