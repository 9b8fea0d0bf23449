import ImapRequest.Octet

/-!
# Atoms and tags

Two kinds of words are kept as they were sent.  An `Atom` names a flag or a keyword, a `Tag`
identifies a command so that its responses can be told apart.

* `Atom.ofText`, `Tag.ofText` : the word with a given spelling, or the reason why there is none;
* `Word.check` : the rule behind both, a word has at least one octet and all are of one class.
-/

namespace ImapRequest

/-- Why a text is no word of some kind. -/
inductive WordError where
  /-- A word has at least one octet. -/
  | empty
  /-- The octet at this index is not of the word's class. -/
  | octetNotAllowed (found : UInt8) (index : Nat)
  deriving DecidableEq, Repr

/-- The wording of a word error. -/
def WordError.message : WordError → String
  | empty => "Must not be empty"
  | octetNotAllowed found index =>
    "Invalid byte b'\\x" ++ Octet.hex found ++ "' at index " ++ toString index

namespace Word

/-- The first octet outside a class, with its index. -/
def firstOutside (allowed : UInt8 → Bool) (index : Nat) : List UInt8 → Option (UInt8 × Nat)
  | [] => none
  | b :: bs => if allowed b then firstOutside allowed (index + 1) bs else some (b, index)

/-- Whether octets are a word of a class: at least one, and all of the class. -/
def check (allowed : UInt8 → Bool) (bs : List UInt8) : Except WordError Unit :=
  if bs.isEmpty then .error .empty
  else match firstOutside allowed 0 bs with
    | some (b, i) => .error (.octetNotAllowed b i)
    | none => .ok ()

theorem firstOutside_eq_none {allowed : UInt8 → Bool} {bs : List UInt8} {i : Nat} :
    firstOutside allowed i bs = none ↔ bs.all allowed = true := by
  induction bs generalizing i with
  | nil => simp [firstOutside]
  | cons b bs ih => by_cases h : allowed b <;> simp [firstOutside, h, ih]

/-- The rule behind `check`. -/
theorem check_eq_ok {allowed : UInt8 → Bool} {bs : List UInt8} :
    check allowed bs = .ok () ↔ bs ≠ [] ∧ bs.all allowed = true := by
  unfold check
  cases bs with
  | nil => simp
  | cons b bs =>
    simp only [List.isEmpty_cons, Bool.false_eq_true, ↓reduceIte, ne_eq, reduceCtorEq,
      not_false_eq_true, true_and]
    rw [← firstOutside_eq_none (i := 0)]
    split <;> simp_all

end Word

/-- A word of atom characters. -/
structure Atom where
  /-- The spelling, as sent. -/
  text : String
  deriving DecidableEq, Repr

namespace Atom

/-- Whether octets spell an atom. -/
def check (bs : List UInt8) : Except WordError Unit := Word.check Octet.isAtomChar bs

/-- The atom with a given spelling. -/
def ofText (s : String) : Except WordError Atom := do
  check (Octet.ofText s)
  return ⟨s⟩

/-- The atom spelled by octets that a decoder has found to be atom characters. -/
def ofOctets (bs : List UInt8) : Atom := ⟨Octet.toText bs⟩

end Atom

/-- The word that identifies a command. -/
structure Tag where
  /-- The spelling, as sent. -/
  text : String
  deriving DecidableEq, Repr

namespace Tag

/-- Whether octets spell a tag. -/
def check (bs : List UInt8) : Except WordError Unit := Word.check Octet.isTagChar bs

/-- The tag with a given spelling. -/
def ofText (s : String) : Except WordError Tag := do
  check (Octet.ofText s)
  return ⟨s⟩

/-- The tag spelled by octets that a decoder has found to be tag characters. -/
def ofOctets (bs : List UInt8) : Tag := ⟨Octet.toText bs⟩

end Tag

end ImapRequest
