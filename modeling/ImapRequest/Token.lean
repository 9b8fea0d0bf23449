import ImapRequest.Octet.Utf8

/-!
# Tokens

Sets of message numbers, dates and body sections are first taken from the request as one token
and then read as a whole.  A reader of tokens stops at the octet that it can not use; what is
left there is part of the failure.
-/

namespace ImapRequest

/-- What a token was to be. -/
inductive TokenKind where
  | sequenceSet
  | bodySection
  | date
  | dateTime
  deriving DecidableEq, Repr

/-- The name of a kind of token in messages. -/
def TokenKind.name : TokenKind → String
  | sequenceSet => "sequence set"
  | bodySection => "section"
  | date => "date"
  | dateTime => "date-time"

/-- What is wrong with a token. -/
inductive TokenReason where
  /-- It is not of the form that its kind has. -/
  | malformed
  /-- It has the form of a date that is not in the calendar. -/
  | noSuchDate
  deriving DecidableEq, Repr

/-- The wording of what is wrong with a token. -/
def TokenReason.text : TokenReason → String
  | malformed => "malformed"
  | noSuchDate => "no such date"

/-- What is wrong with a token, and the octet where its reader stopped. -/
structure TokenFault where
  /-- What is wrong. -/
  reason : TokenReason
  /-- The octet that could not be used, unless the token ended there. -/
  found : Option UInt8
  deriving DecidableEq, Repr

namespace TokenFault

/-- The octets that are left do not fit. -/
def malformed (left : List UInt8) : TokenFault := ⟨.malformed, left.head?⟩

end TokenFault

/-- Reads the front of a token: the value there and the octets after it, or the octets in front
of which reading stopped. -/
def TokenReader (α : Type) : Type := List UInt8 → Except (List UInt8) (α × List UInt8)

namespace TokenReader

variable {α β : Type}

instance : Monad TokenReader where
  pure a := fun bs => .ok (a, bs)
  bind x f := fun bs => match x bs with
    | .ok (a, rest) => f a rest
    | .error left => .error left

/-- Stops in front of what is left. -/
def stop : TokenReader α := fun bs => .error bs

/-- Reads with `x` or, where `x` stops at once or later, from the same place with `y`.  Where both
stop, they count as stopped in front of it. -/
def either (x y : TokenReader α) : TokenReader α := fun bs =>
  match x bs with
  | .ok r => .ok r
  | .error _ => match y bs with
    | .ok r => .ok r
    | .error _ => .error bs

/-- Reads one given octet. -/
def octet (expected : UInt8) : TokenReader Unit := fun bs =>
  match bs with
  | b :: rest => if b == expected then .ok ((), rest) else .error bs
  | [] => .error bs

/-- Reads exactly `count` digits, in front of which it stops when there are fewer. -/
def digits (count : Nat) : TokenReader (List UInt8) := fun bs =>
  let ds := bs.take count
  if ds.length == count && ds.all Octet.isDigit then .ok (ds, bs.drop count) else .error bs

theorem bind_apply (x : TokenReader α) (f : α → TokenReader β) (bs : List UInt8) :
    (x >>= f) bs = match x bs with
      | .ok (a, rest) => f a rest
      | .error left => .error left := rfl

theorem pure_apply (a : α) (bs : List UInt8) : (pure a : TokenReader α) bs = .ok (a, bs) := rfl

end TokenReader

end ImapRequest
