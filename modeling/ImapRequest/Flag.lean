import ImapRequest.Word

/-!
# Flags

A flag is one of the five system flags, an extension (`\` and an atom) or a keyword (an atom).
System flags are recognised in any letter case, so every extension differs from all of them.

* `Flag.ofText`, `Flag.toText` : reading and writing a flag;
* `Flag.distinct` : flags in the order of their first occurrence, each once;
* `StoreMode`, `StoreResponse` : what a STORE command does with its flags.
-/

namespace ImapRequest

/-- A flag of a message. -/
inductive Flag where
  | answered
  | deleted
  | draft
  | flagged
  | seen
  /-- A flag that starts with a backslash but is no system flag. -/
  | extension (name : Atom)
  | keyword (name : Atom)
  deriving DecidableEq, Repr

namespace Flag

/-- The names of the system flags. -/
def systemNames : List (String × Flag) :=
  [("Answered", .answered), ("Deleted", .deleted), ("Draft", .draft), ("Flagged", .flagged),
    ("Seen", .seen)]

/-- The flag that is written as a backslash and a name. -/
def ofBackslashed (name : Atom) : Flag :=
  match systemNames.find? fun entry => sameLetters entry.1 name.text with
  | some (_, flag) => flag
  | none => .extension name

/-- The flag with a given text. -/
def ofText (s : String) : Except WordError Flag :=
  match s.toList with
  | '\\' :: name => return ofBackslashed (← Atom.ofText (String.ofList name))
  | _ => return .keyword (← Atom.ofText s)

/-- The text of a flag. -/
def toText : Flag → String
  | answered => "\\Answered"
  | deleted => "\\Deleted"
  | draft => "\\Draft"
  | flagged => "\\Flagged"
  | seen => "\\Seen"
  | extension name => "\\" ++ name.text
  | keyword name => name.text

/-- Flags in the order of their first occurrence, after `before`, each once. -/
def distinctAfter (before : List Flag) : List Flag → List Flag
  | [] => []
  | f :: fs => if f ∈ before then distinctAfter before fs else f :: distinctAfter (f :: before) fs

/-- Flags in the order of their first occurrence, each once. -/
def distinct (fs : List Flag) : List Flag := distinctAfter [] fs

theorem mem_distinctAfter {before fs : List Flag} {f : Flag} :
    f ∈ distinctAfter before fs ↔ f ∈ fs ∧ f ∉ before := by
  induction fs generalizing before with
  | nil => simp [distinctAfter]
  | cons g fs ih => by_cases h : g ∈ before <;> grind [distinctAfter]

@[simp] theorem mem_distinct {fs : List Flag} {f : Flag} : f ∈ distinct fs ↔ f ∈ fs := by
  simp [distinct, mem_distinctAfter]

theorem nodup_distinctAfter (before fs : List Flag) : (distinctAfter before fs).Nodup := by
  induction fs generalizing before with
  | nil => simp [distinctAfter]
  | cons g fs ih =>
    by_cases h : g ∈ before
    · simpa [distinctAfter, h] using ih before
    · simp [distinctAfter, h, mem_distinctAfter, ih]

theorem nodup_distinct (fs : List Flag) : (distinct fs).Nodup := nodup_distinctAfter [] fs

end Flag

/-- How a STORE command applies its flags. -/
inductive StoreMode where
  /-- The flags take the place of those that are set. -/
  | replace
  /-- The flags are set in addition. -/
  | add
  /-- The flags are cleared. -/
  | remove
  deriving DecidableEq, Repr

/-- Whether a STORE command is answered with the new flags. -/
inductive StoreResponse where
  | answer
  | silent
  deriving DecidableEq, Repr

/-- What a STORE command asks for. -/
structure StoreRequest where
  mode : StoreMode
  response : StoreResponse
  flags : List Flag
  deriving DecidableEq, Repr

end ImapRequest
