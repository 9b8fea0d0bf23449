import ImapRequest.Fetch.Decode
import ImapRequest.Proofs.Written.Sets

/-!
# Renderings of sections

A section of a message is written as the path to a part, as a name in any letter case, or as both
with a full stop between them.

* `SectionKind.token` : the renderings;
* `SectionKind.ofToken_of_mem` : all of them are read as the section.
-/

namespace ImapRequest

namespace SectionKind

open TokenReader

/-- The name of a section, nothing for all of the content. -/
def word : SectionKind → String
  | content => ""
  | header => "HEADER"
  | headerFields => "HEADER.FIELDS"
  | headerFieldsNot => "HEADER.FIELDS.NOT"
  | mime => "MIME"
  | text => "TEXT"

/-- The text of a section is its name. -/
theorem toText_eq_word (kind : SectionKind) : kind.toText = kind.word := by cases kind <;> rfl

/-- The name of a section in any letter case. -/
def spelled (kind : SectionKind) : Language UInt8 :=
  fun bs => bs.map Octet.upper = (Octet.ofText kind.word).map Octet.upper

/-- The numbers of a path with full stops between them. -/
def path (ns : List Nat) : Language UInt8 := separated Octet.dot SequenceSet.number ns

/-- A section in front of any field names.  Only a part has a MIME header. -/
def token : List Nat → SectionKind → Language UInt8
  | [], mime => 0
  | [], kind => spelled kind
  | n :: ns, content => path (n :: ns)
  | n :: ns, kind => path (n :: ns) * ({[Octet.dot]} * spelled kind)

/-- Whether the name of a section fits, which depends on letters only. -/
def fits (bs : List UInt8) (kind : SectionKind) : Bool :=
  Octet.sameLetters (Octet.ofText kind.toText) (bs.take kind.toText.length)

theorem read_eq (bs : List UInt8) : read bs = match named.find? (fits bs) with
    | some kind => .ok (kind, bs.drop kind.toText.length)
    | none => .error bs := rfl

/-- Names are read to their end. -/
theorem read_of_mem {kind : SectionKind} (hkind : kind ≠ content) {bs : List UInt8}
    (h : bs ∈ spelled kind) : read bs = .ok (kind, []) := by
  -- Which names fit does not depend on letter case, so the name itself decides.
  have hfits : ∀ k : SectionKind, fits bs k = fits (Octet.ofText kind.word) k := by
    intro k
    rw [fits, fits, Octet.sameLetters, Octet.sameLetters, List.map_take, List.map_take]
    rw [show bs.map Octet.upper = _ from h]
  have hlength : bs.length = kind.toText.length := by
    have hmap := congrArg List.length (show bs.map Octet.upper = _ from h)
    rw [List.length_map, List.length_map] at hmap
    rw [hmap]
    cases kind <;> rfl
  have hfind : named.find? (fits bs) = some kind := by
    rw [funext hfits]
    cases kind with
    | content => exact absurd rfl hkind
    | header => decide
    | headerFields => decide
    | headerFieldsNot => decide
    | mime => decide
    | text => decide
  rw [read_eq, hfind]
  simp [hlength]

/-- No name starts with a digit. -/
theorem read_of_digit {b : UInt8} (hb : Octet.isDigit b = true) (s : List UInt8) :
    read (b :: s) = .error (b :: s) := by
  have hupper : ∀ b, Octet.isDigit (Octet.upper b) = Octet.isDigit b :=
    Octet.forall_octet (by decide +kernel)
  -- Every name starts with a letter.
  have hfits : ∀ kind ∈ named, fits (b :: s) kind = false := by
    intro kind hkind
    have hname : kind.toText.length ≠ 0 ∧
        ((Octet.ofText kind.toText).map Octet.upper).head?.all (fun a => !Octet.isDigit a) = true ∧
        Octet.ofText kind.toText ≠ [] := by
      revert kind
      decide
    obtain ⟨n, hn⟩ := Nat.exists_eq_succ_of_ne_zero hname.1
    obtain ⟨a, as, has⟩ := List.exists_cons_of_ne_nil hname.2.2
    rw [fits, Octet.sameLetters, hn, List.take_succ_cons, has]
    rw [has] at hname
    refine beq_eq_false_iff_ne.2 fun heq => ?_
    have ha : Octet.isDigit (Octet.upper a) = false := by simpa using hname.2.1
    rw [List.head_eq_of_cons_eq heq, hupper, hb] at ha
    exact absurd ha (by decide)
  have hfind : named.find? (fits (b :: s)) = none :=
    List.find?_eq_none.2 fun kind hkind => by simp [hfits kind hkind]
  rw [read_eq, hfind]

/-- What follows a path: nothing, or the name of a section. -/
def PathEnds (s : List UInt8) : Prop :=
  s = [] ∨ ∃ b u, s = Octet.dot :: b :: u ∧ Octet.isDigit b = false

theorem PathEnds.stops {s : List UInt8} (h : PathEnds s) : Stops Octet.isDigit s := by
  obtain rfl | ⟨b, u, rfl, -⟩ := h
  · simp [Stops]
  · exact .cons rfl _

theorem readNumber_of_not_digit {b : UInt8} (hb : Octet.isDigit b = false) (s : List UInt8) :
    SequenceSet.readNumber (b :: s) = .error (b :: s) := by
  have htake : (b :: s).takeWhile Octet.isDigit = [] := by simp [hb]
  simp only [SequenceSet.readNumber, htake]
  rfl

/-- Behind the full stop after a number the path goes on, if there is another number. -/
theorem readPath_of_dot {n : Nat} {bs s : List UInt8} {limit : Nat}
    (h : SequenceSet.readNumber bs = .ok (n, Octet.dot :: s)) :
    readPath (limit + 1) bs = match readPath limit s with
      | ([], _) => ([n], Octet.dot :: s)
      | (ns, left) => (n :: ns, left) := by
  rw [readPath, h]
  rfl

theorem readPath_eq (limit : Nat) : ∀ bs : List UInt8,
    readPath limit bs = readSeparated Octet.dot SequenceSet.readNumber limit bs := by
  induction limit with
  | zero => exact fun _ => rfl
  | succ limit ih =>
    intro bs
    cases hread : SequenceSet.readNumber bs with
    | error left => rw [readPath, hread, readSeparated_of_error hread]
    | ok p =>
      obtain ⟨n, rest⟩ := p
      by_cases hdot : ∃ s, rest = Octet.dot :: s
      · obtain ⟨s, rfl⟩ := hdot
        rw [readPath_of_dot hread, readSeparated_of_separator hread, ← ih]
        rcases readPath limit s with ⟨_ | ⟨_, _⟩, _⟩ <;> rfl
      · rw [readPath, hread,
          readSeparated_of_ne hread (by simpa [List.head?_eq_some_iff] using hdot)]
        dsimp only
        split
        · exact absurd ⟨_, rfl⟩ hdot
        · rfl

theorem readPath_of_mem {ns : List Nat} {bs s : List UInt8} {limit : Nat} (hbs : bs ∈ path ns)
    (hs : PathEnds s) (hlimit : ns.length ≤ limit) : readPath limit (bs ++ s) = (ns, s) := by
  have hends : EndsSeparated Octet.dot SequenceSet.readNumber s := by
    obtain rfl | ⟨b, u, rfl, hb⟩ := hs
    · exact Or.inl (by simp)
    · exact Or.inr ⟨_, _, rfl, readNumber_of_not_digit hb u⟩
  rw [readPath_eq]
  exact readSeparated_of_mem SequenceSet.readNumber_reads (fun s => Stops.cons rfl s) ns
    hbs hs.stops
    hends hlimit

/-- The octets of a path. -/
theorem path_of_mem {ns : List Nat} {bs : List UInt8} (h : bs ∈ path ns) :
    (∃ b u, bs = b :: u ∧ Octet.isDigit b = true) ∧
      bs.all BodyElement.isSectionChar = true ∧ ns.length ≤ bs.length := by
  refine separated_of_mem rfl ?_ h
  rintro n bs ⟨hds, -⟩
  obtain ⟨d, ds, rfl⟩ := List.exists_cons_of_ne_nil hds.ne_nil
  have hall := hds.all_isDigit
  refine ⟨⟨d, ds, rfl, List.all_eq_true.1 hall d (List.mem_cons_self ..)⟩,
    List.all_eq_true.2 fun b hb => ?_⟩
  simp [BodyElement.isSectionChar, Octet.isAlphanumeric, List.all_eq_true.1 hall b hb]

theorem spelled_of_mem {kind : SectionKind} {bs : List UInt8} (h : bs ∈ spelled kind) :
    bs.all BodyElement.isSectionChar = true ∧
      (kind ≠ content → ∃ b u, bs = b :: u ∧ Octet.isDigit b = false) := by
  have hupper : ∀ b, BodyElement.isSectionChar (Octet.upper b) = BodyElement.isSectionChar b :=
    Octet.forall_octet (by decide +kernel)
  have hdigit : ∀ b, Octet.isDigit (Octet.upper b) = Octet.isDigit b :=
    Octet.forall_octet (by decide +kernel)
  refine ⟨Octet.all_of_map_upper hupper h (by cases kind <;> decide), fun hkind => ?_⟩
  have hname : ((Octet.ofText kind.word).map Octet.upper).head?.any
      (fun a => !Octet.isDigit a) = true := by
    cases kind with
    | content => exact absurd rfl hkind
    | _ => decide
  rw [← show bs.map Octet.upper = _ from h] at hname
  cases bs with
  | nil => exact absurd hname (by decide)
  | cons b u => exact ⟨b, u, rfl, by simpa [hdigit] using hname⟩

/-- Sections are read to their end. -/
theorem ofToken_of_mem {ns : List Nat} {kind : SectionKind} {bs : List UInt8}
    (h : bs ∈ token ns kind) : ofToken bs = .ok (ns, kind) := by
  cases ns with
  | nil =>
    by_cases hcontent : kind = content
    · subst hcontent
      obtain rfl : bs = [] := List.map_eq_nil_iff.1 h
      decide
    · have hmem : bs ∈ spelled kind := by
        cases kind with
        | mime => exact absurd h (Language.notMem_zero bs)
        | content => exact absurd rfl hcontent
        | _ => exact h
      rw [ofToken, read_of_mem hcontent hmem]
      rfl
  | cons n ns =>
    -- A path is followed by nothing or by the name of a section.
    obtain ⟨as, s, has, rfl, hs, hpart⟩ : ∃ as s, as ∈ path (n :: ns) ∧ bs = as ++ s ∧ PathEnds s ∧
        readOfPart s = (kind, []) := by
      by_cases hcontent : kind = content
      · subst hcontent
        exact ⟨bs, [], h, (List.append_nil bs).symm, Or.inl rfl, rfl⟩
      · obtain ⟨as, has, _, ⟨_, rfl, us, hus, rfl⟩, rfl⟩ :
            bs ∈ path (n :: ns) * ({[Octet.dot]} * spelled kind) := by
          cases kind with
          | content => exact absurd rfl hcontent
          | _ => exact h
        obtain ⟨b, u, rfl, hb⟩ := (spelled_of_mem hus).2 hcontent
        refine ⟨as, Octet.dot :: b :: u, has, rfl, Or.inr ⟨b, u, rfl, hb⟩, ?_⟩
        rw [readOfPart, TokenReader.bind_apply, TokenReader.octet_cons]
        simp only [read_of_mem hcontent hus]
    obtain ⟨⟨b, u, rfl, hb⟩, -, hle⟩ := path_of_mem has
    have hlimit : (n :: ns).length ≤ (b :: u ++ s).length := by
      rw [List.length_append]
      omega
    rw [ofToken, List.cons_append, read_of_digit hb, ← List.cons_append]
    simp only [readPath_of_mem has hs hlimit, hpart]
    rfl

theorem all_of_mem_token {ns : List Nat} {kind : SectionKind} {bs : List UInt8}
    (h : bs ∈ token ns kind) : bs.all BodyElement.isSectionChar = true := by
  have hspelled : ∀ kind, ∀ bs ∈ spelled kind, bs.all BodyElement.isSectionChar = true :=
    fun kind bs hbs => (spelled_of_mem hbs).1
  have hpath : ∀ ns, ∀ bs ∈ path ns, bs.all BodyElement.isSectionChar = true :=
    fun ns bs hbs => (path_of_mem hbs).2.1
  have hpart : ∀ ns kind, ∀ bs ∈ path ns * ({[Octet.dot]} * spelled kind),
      bs.all BodyElement.isSectionChar = true := fun ns kind =>
    Octet.all_of_mem_mul (hpath ns)
      (Octet.all_of_mem_mul (Octet.all_of_mem_singleton rfl) (hspelled kind))
  cases ns with
  | nil =>
    cases kind with
    | mime => exact absurd h (Language.notMem_zero bs)
    | _ => exact hspelled _ bs h
  | cons n ns =>
    cases kind with
    | content => exact hpath _ bs h
    | _ => exact hpart _ _ bs h

/-- Every path of numbers in 32 bits can be written. -/
theorem exists_mem_path {ns : List Nat} (hne : ns ≠ [])
    (h : ∀ n ∈ ns, 1 ≤ n ∧ n ≤ Decimal.maxNumber) : ∃ bs, bs ∈ path ns := by
  refine exists_mem_separated hne fun n hn => ?_
  obtain ⟨hle, hmax⟩ := h n hn
  obtain ⟨ds, hds, hhead⟩ := Decimal.exists_isNumber n hmax
  exact ⟨ds, hds, hhead (Nat.ne_of_gt hle)⟩

end SectionKind

end ImapRequest
