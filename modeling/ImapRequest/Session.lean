import ImapRequest.Request

/-!
# Sessions

A client sends request after request.  They are decoded until nothing more is there, or until the
connection can not go on.
-/

namespace ImapRequest

/-- The answer to one request, and the cursor after it. -/
structure Step where
  answer : Except Failure Request
  cursor : Cursor

namespace Session

/-- The steps from a cursor on, at most `limit` of them. -/
def stepsUpTo (ctx : Context) : Nat → Cursor → List Step
  | 0, _ => []
  | limit + 1, c =>
    let (answer, c) := Request.decode ctx c
    let step := { answer, cursor := c }
    match answer with
    | .error _ => [step]
    | .ok _ => if c.isConsumed then [step] else step :: stepsUpTo ctx limit c

/-- The steps of a session.  There is at least one, and each that is answered takes at least one
octet, so there are at most as many as octets, or there is one. -/
def steps (ctx : Context) (c : Cursor) : List Step := stepsUpTo ctx (c.rest.length + 1) c

end Session

end ImapRequest
