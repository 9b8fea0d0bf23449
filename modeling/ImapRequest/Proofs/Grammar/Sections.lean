import ImapRequest.Proofs.Grammar.Sets
import ImapRequest.Proofs.Written.Fetch

/-!
# The grammar of parts of the content

```
element = "[" section [SP "(" field *(SP field) ")"] "]" ["<" number "." number ">"]
section = [path] [name] / path "." name
path = nz-number *("." nz-number)
```

The front part of a section is a token that is read on its own: the longest name that fits, or as
much of a path as there is and then a name behind a full stop.  What is left of the token is an
error, so only whole sections are read.

* `SectionKind.ofToken_eq_ok_iff` : the tokens that are sections;
* `BodyElement.Spelled` : the octets of a part of the content;
* `BodyElement.sections_exact` : these are what is decoded, and what is refused for its section.
-/

namespace ImapRequest

namespace SectionKind

open TokenReader

/-! ### Sections as tokens -/

variable {bs us vs left : List UInt8} {kind : SectionKind} {ns : List Nat} {n : Nat}

theorem read_takes : Takes read fun kind => {us | kind ≠ content ∧ us ∈ spelled kind} := by
  intro bs kind left h
  rw [read_eq] at h
  split at h
  · rename_i k hfind
    obtain ⟨rfl, rfl⟩ : k = kind ∧ bs.drop k.toText.length = left := by simpa using h
    have hne : ∀ k ∈ named, k ≠ content := by decide
    have hfits : fits bs k = true := List.find?_some hfind
    exact ⟨bs.take k.toText.length, ⟨hne k (List.mem_of_find?_eq_some hfind),
      (beq_iff_eq.1 hfits).symm⟩, (List.take_append_drop ..).symm⟩
  · simp at h

/-- Behind a path there is a full stop and a name, or else nothing more is read. -/
theorem readOfPart_cases (h : readOfPart bs = (kind, left)) :
    kind = content ∧ left = bs ∨
      kind ≠ content ∧ ∃ us ∈ spelled kind, bs = Octet.dot :: (us ++ left) := by
  rw [readOfPart] at h
  split at h
  · rename_i r hread
    subst h
    cases bs with
    | nil => simp [bind_apply, octet] at hread
    | cons b rest =>
      rw [bind_apply, octet] at hread
      split_ifs at hread with hb
      · obtain rfl : b = Octet.dot := by simpa using hb
        obtain ⟨us, ⟨hkind, hus⟩, rfl⟩ := read_takes hread
        exact Or.inr ⟨hkind, us, hus, rfl⟩
  · obtain ⟨rfl, rfl⟩ := Prod.mk.inj h
    exact Or.inl ⟨rfl, rfl⟩

theorem mem_token_nil (hkind : kind ≠ mime) : bs ∈ token [] kind ↔ bs ∈ spelled kind := by
  cases kind with
  | mime => exact absurd rfl hkind
  | _ => rfl

/-- Behind a path stands nothing, or a full stop and a name. -/
theorem mem_token_cons : bs ∈ token (n :: ns) kind ↔ ∃ us ∈ path (n :: ns),
    kind = content ∧ bs = us ∨
      kind ≠ content ∧ ∃ vs ∈ spelled kind, bs = us ++ Octet.dot :: vs := by
  have hnamed : bs ∈ path (n :: ns) * ({[Octet.dot]} * spelled kind) ↔
      ∃ us ∈ path (n :: ns), ∃ vs ∈ spelled kind, bs = us ++ Octet.dot :: vs := by
    constructor
    · rintro ⟨us, hus, _, ⟨_, rfl, vs, hvs, rfl⟩, rfl⟩
      exact ⟨us, hus, vs, hvs, rfl⟩
    · rintro ⟨us, hus, vs, hvs, rfl⟩
      exact ⟨us, hus, _, ⟨_, rfl, vs, hvs, rfl⟩, rfl⟩
  cases kind with
  | content => simp [token]
  | _ =>
    change bs ∈ path (n :: ns) * ({[Octet.dot]} * spelled _) ↔ _
    simpa using hnamed

/-- Tokens are read as sections exactly where they are renderings of them, but for a MIME header
without a path. -/
theorem ofToken_eq_ok_iff :
    ofToken bs = .ok (ns, kind) ∧ ¬ (kind = mime ∧ ns = []) ↔ bs ∈ token ns kind := by
  constructor
  · rintro ⟨h, hmime⟩
    have hend : ∀ {ns' : List Nat} {kind' : SectionKind} {left : List UInt8},
        (if left.isEmpty then .ok (ns', kind') else .error (.malformed left) :
          Except TokenFault (List Nat × SectionKind)) = .ok (ns, kind) →
        ns' = ns ∧ kind' = kind ∧ left = [] := by
      intro ns' kind' left h
      split_ifs at h with hleft
      obtain ⟨rfl, rfl⟩ := Prod.mk.inj (Except.ok.inj h)
      exact ⟨rfl, rfl, List.isEmpty_iff.1 hleft⟩
    rw [ofToken] at h
    cases hread : read bs with
    | ok p =>
      obtain ⟨k, left⟩ := p
      rw [hread] at h
      obtain ⟨rfl, rfl, rfl⟩ := hend h
      obtain ⟨us, ⟨-, hus⟩, rfl⟩ := read_takes hread
      rw [mem_token_nil fun hk => hmime ⟨hk, rfl⟩, List.append_nil]
      exact hus
    | error e =>
      rw [hread] at h
      dsimp only at h
      cases hpath : readPath bs.length bs with
      | mk ns' rest =>
        rw [hpath] at h
        cases ns' with
        | nil =>
          obtain ⟨rfl, rfl, rfl⟩ := hend h
          rfl
        | cons m ns' =>
          rw [readPath_eq] at hpath
          obtain ⟨us, hus, heq⟩ := exists_of_readSeparated SequenceSet.readNumber_takes _ hpath
            (List.cons_ne_nil m ns')
          obtain ⟨rfl, hkind, hleft⟩ := hend h
          have hpart : readOfPart rest = (kind, []) := Prod.ext hkind hleft
          rcases readOfPart_cases hpart with ⟨rfl, rfl⟩ | ⟨hk, vs, hvs, rfl⟩
          · exact mem_token_cons.2 ⟨us, hus, Or.inl ⟨rfl, heq.trans (List.append_nil us)⟩⟩
          · refine mem_token_cons.2 ⟨us, hus, Or.inr ⟨hk, vs, hvs, ?_⟩⟩
            rw [heq, List.append_nil]
  · intro h
    refine ⟨ofToken_of_mem h, ?_⟩
    rintro ⟨rfl, rfl⟩
    exact Language.notMem_zero bs h

/-! ### Tokens that are no sections -/

/-- Tokens that are refused for what stands at one place in them. -/
inductive Malformed : List UInt8 → Prop
  /-- A whole message has no MIME header. -/
  | mime {us : List UInt8} (h : us ∈ spelled mime) : Malformed us
  | danglingDot (us : List UInt8) : Malformed (us ++ [Octet.dot])
  | partZero (vs : List UInt8) : Malformed (0x30 :: vs)
  | innerPartZero (us vs : List UInt8) : Malformed (us ++ Octet.dot :: 0x30 :: vs)
  /-- A word goes on behind the name of a section, and is no longer name. -/
  | longerName {kind : SectionKind} {us vs : List UInt8} (hkind : kind ≠ content)
    (hus : us ∈ spelled kind) (hno : ∀ kind, us ++ vs ∉ spelled kind) : Malformed (us ++ vs)
  | longerNameOfPart {ns : List Nat} {kind : SectionKind} {ts us vs : List UInt8}
    (hts : ts ∈ path ns) (hkind : kind ≠ content) (hus : us ∈ spelled kind)
    (hno : ∀ kind, us ++ vs ∉ spelled kind) : Malformed (ts ++ Octet.dot :: (us ++ vs))

/-- A path between two full stops. -/
theorem exists_path_of_dot (h : us ++ Octet.dot :: vs ∈ path ns) : ∃ ms, vs ∈ path ms := by
  have hnumber : ∀ n, ∀ us ∈ SequenceSet.number n, Octet.dot ∉ us := by
    rintro n us ⟨hds, -⟩ hdot
    exact absurd (List.all_eq_true.1 hds.all_isDigit _ hdot) (by decide)
  induction ns generalizing us with
  | nil => exact absurd h (Language.notMem_zero _)
  | cons n ns ih =>
    by_cases hus : Octet.dot ∈ us
    · -- The path goes on behind the first full stop.
      obtain ⟨ts, ws, rfl, hts⟩ := List.eq_append_cons_of_mem hus
      rw [List.append_assoc] at h
      obtain ⟨n', ns', heq, -, hws⟩ := (mem_separated_append hnumber hts).1 h
      obtain ⟨rfl, rfl⟩ := List.cons.inj heq
      exact ih hws
    · obtain ⟨n', ns', -, -, hvs⟩ := (mem_separated_append hnumber hus).1 h
      exact ⟨ns', hvs⟩

/-- No number of a path starts with a zero. -/
theorem exists_cons_of_mem_path (h : bs ∈ path ns) :
    ∃ b u, bs = b :: u ∧ Octet.isDigit b = true ∧ b ≠ 0x30 := by
  obtain ⟨⟨b, u, rfl, hb⟩, -⟩ := path_of_mem h
  refine ⟨b, u, rfl, hb, ?_⟩
  rintro rfl
  have hnumber : ∀ {n : Nat} {us : List UInt8}, us ∈ SequenceSet.number n →
      ∀ vs, (us ++ vs).head? ≠ some 0x30 := by
    rintro n us ⟨hds, hhead⟩ vs
    obtain ⟨d, ds, rfl⟩ := List.exists_cons_of_ne_nil hds.ne_nil
    exact hhead
  cases ns with
  | nil => exact Language.notMem_zero _ h
  | cons n ns =>
    cases ns with
    | nil => exact hnumber h [] (by simp)
    | cons m ns =>
      obtain ⟨us, hus, vs, -, heq⟩ := mem_separated_cons_cons.1 h
      exact hnumber hus (Octet.dot :: vs) (by rw [← heq]; rfl)

/-- Behind a full stop in a name the name goes on with a letter. -/
theorem exists_cons_of_dot_of_mem_spelled (h : us ++ Octet.dot :: vs ∈ spelled kind) :
    ∃ b u, vs = b :: u ∧ Octet.isDigit b = false := by
  have hupper : ∀ b, Octet.isDigit (Octet.upper b) = Octet.isDigit b :=
    Octet.forall_octet (by decide +kernel)
  have hname : ∀ i < 17, ((Octet.ofText kind.word).map Octet.upper)[i]? = some Octet.dot →
      ((Octet.ofText kind.word).map Octet.upper)[i + 1]?.any (fun b =>
        !Octet.isDigit b) = true := by
    cases kind <;> decide
  have hlength : ((Octet.ofText kind.word).map Octet.upper).length ≤ 17 := by
    cases kind <;> decide
  rw [← show (us ++ Octet.dot :: vs).map Octet.upper = _ from h] at hname hlength
  have hlt : us.length < 17 := by
    simp only [List.length_map, List.length_append, List.length_cons] at hlength
    omega
  have hnext := hname us.length hlt (by simp; decide)
  cases vs with
  | nil => simp at hnext
  | cons b u => exact ⟨b, u, rfl, by simpa [hupper] using hnext⟩

/-- Behind a full stop in a token stands something, and no zero. -/
theorem exists_cons_of_dot (h : us ++ Octet.dot :: vs ∈ token ns kind) :
    ∃ b u, vs = b :: u ∧ b ≠ 0x30 := by
  have hspelled : ∀ {us vs : List UInt8}, us ++ Octet.dot :: vs ∈ spelled kind →
      ∃ b u, vs = b :: u ∧ b ≠ 0x30 := by
    intro us vs h
    obtain ⟨b, u, rfl, hb⟩ := exists_cons_of_dot_of_mem_spelled h
    exact ⟨b, u, rfl, by rintro rfl; exact absurd hb (by decide)⟩
  have hpath : ∀ {us vs : List UInt8} {ns : List Nat}, us ++ Octet.dot :: vs ∈ path ns →
      ∃ b u, vs = b :: u ∧ b ≠ 0x30 := by
    intro us vs ns h
    obtain ⟨ms, hvs⟩ := exists_path_of_dot h
    obtain ⟨b, u, rfl, -, hb⟩ := exists_cons_of_mem_path hvs
    exact ⟨b, u, rfl, hb⟩
  cases ns with
  | nil =>
    refine hspelled ((mem_token_nil ?_).1 h)
    rintro rfl
    exact Language.notMem_zero _ h
  | cons n ns =>
    obtain ⟨as, has, ⟨-, heq⟩ | ⟨hkind, name, hname, heq⟩⟩ := mem_token_cons.1 h
    · exact hpath (heq ▸ has)
    have hfront : ∃ b u, name = b :: u ∧ b ≠ 0x30 := by
      obtain ⟨b, u, rfl, hb⟩ := (spelled_of_mem hname).2 hkind
      exact ⟨b, u, rfl, by rintro rfl; exact absurd hb (by decide)⟩
    -- The full stop is in the path, in front of the name or in the name.
    rcases List.append_eq_append_iff.1 heq with ⟨ws, rfl, hws⟩ | ⟨ws, rfl, hws⟩
    · cases ws with
      | nil => exact (List.cons.inj hws).2 ▸ hfront
      | cons w ws =>
        obtain ⟨rfl, rfl⟩ := List.cons.inj hws
        obtain ⟨b, u, rfl, hb⟩ := hpath has
        exact ⟨b, _, rfl, hb⟩
    · cases ws with
      | nil => exact (List.cons.inj hws).2 ▸ hfront
      | cons w ws =>
        obtain ⟨rfl, rfl⟩ := List.cons.inj hws
        exact hspelled hname

/-- A token starts with no zero. -/
theorem zero_cons_not_mem_token : 0x30 :: vs ∉ token ns kind := by
  intro h
  cases ns with
  | nil =>
    by_cases hkind : kind = content
    · subst hkind
      exact absurd (List.map_eq_nil_iff.1 h) (List.cons_ne_nil _ _)
    · have hname : 0x30 :: vs ∈ spelled kind := by
        refine (mem_token_nil ?_).1 h
        rintro rfl
        exact Language.notMem_zero _ h
      obtain ⟨b, u, heq, hb⟩ := (spelled_of_mem hname).2 hkind
      obtain ⟨rfl, -⟩ := List.cons.inj heq
      exact absurd hb (by decide)
  | cons n ns =>
    obtain ⟨us, hus, hbs⟩ := mem_token_cons.1 h
    obtain ⟨b, u, rfl, -, hb⟩ := exists_cons_of_mem_path hus
    rcases hbs with ⟨-, heq⟩ | ⟨-, name, -, heq⟩
    · exact hb (List.cons.inj heq).1.symm
    · exact hb (List.cons.inj heq).1.symm

/-- A word that starts with no digit and is no name is no section, and none of a part. -/
theorem not_mem_token_of_word {b : UInt8} {u : List UInt8} (hb : Octet.isDigit b = false)
    (hno : ∀ kind, b :: u ∉ spelled kind) :
    b :: u ∉ token ns kind ∧ ∀ {ts : List UInt8} {ms : List Nat}, ts ∈ path ms →
      ts ++ Octet.dot :: b :: u ∉ token ns kind := by
  -- A path starts with a digit, also behind a full stop in it, and a name does not.
  have hdigit : ∀ {us : List UInt8} {ms : List Nat}, us ∈ path ms → ∀ vs, us ++ vs ≠ b :: u := by
    rintro us ms hus vs heq
    obtain ⟨d, us, rfl, hd, -⟩ := exists_cons_of_mem_path hus
    obtain ⟨rfl, -⟩ := List.cons.inj heq
    simp [hb] at hd
  have hletter : ∀ {us vs : List UInt8} {ms : List Nat} {kind : SectionKind}, us ∈ path ms →
      us ++ vs ∉ spelled kind := by
    rintro us vs ms kind hus h
    obtain ⟨d, us, rfl, hd, -⟩ := exists_cons_of_mem_path hus
    by_cases hkind : kind = content
    · subst hkind
      exact absurd (List.map_eq_nil_iff.1 h) (List.cons_ne_nil _ _)
    · obtain ⟨b', u', heq, hb'⟩ := (spelled_of_mem h).2 hkind
      obtain ⟨rfl, -⟩ := List.cons.inj heq
      simp [hb'] at hd
  have hnil : ∀ {bs : List UInt8}, bs ∈ token [] kind → bs ∈ spelled kind := by
    intro bs h
    refine (mem_token_nil ?_).1 h
    rintro rfl
    exact Language.notMem_zero _ h
  refine ⟨fun h => ?_, fun {ts ms} hts h => ?_⟩
  · cases ns with
    | nil => exact hno kind (hnil h)
    | cons n ns =>
      obtain ⟨us, hus, ⟨-, heq⟩ | ⟨-, name, -, heq⟩⟩ := mem_token_cons.1 h
      · exact hdigit hus [] ((List.append_nil us).trans heq.symm)
      · exact hdigit hus _ heq.symm
  · cases ns with
    | nil => exact hletter hts (hnil h)
    | cons n ns =>
      obtain ⟨us, hus, ⟨-, rfl⟩ | ⟨-, name, hname, heq⟩⟩ := mem_token_cons.1 h
      · obtain ⟨ms, hms⟩ := exists_path_of_dot hus
        exact hdigit hms [] (List.append_nil _)
      · rcases List.append_eq_append_iff.1 heq with ⟨ws, rfl, hws⟩ | ⟨ws, rfl, hws⟩
        · cases ws with
          | nil => exact hno kind ((List.cons.inj hws).2 ▸ hname)
          | cons w ws =>
            obtain ⟨rfl, hname'⟩ := List.cons.inj hws
            obtain ⟨ms, hms⟩ := exists_path_of_dot hus
            exact hdigit hms _ hname'.symm
        · cases ws with
          | nil => exact hno kind ((List.cons.inj hws).2 ▸ hname)
          | cons w ws =>
            obtain ⟨rfl, rfl⟩ := List.cons.inj hws
            obtain ⟨ms, hms⟩ := exists_path_of_dot hts
            exact hletter hms hname

theorem Malformed.not_mem_token (h : Malformed bs) : bs ∉ token ns kind := by
  have hword : ∀ {kind : SectionKind} {us : List UInt8}, kind ≠ content → us ∈ spelled kind →
      ∀ vs, ∃ b u, us ++ vs = b :: u ∧ Octet.isDigit b = false := by
    intro kind us hkind hus vs
    obtain ⟨b, u, rfl, hb⟩ := (spelled_of_mem hus).2 hkind
    exact ⟨b, u ++ vs, rfl, hb⟩
  intro hbs
  cases h with
  | mime hus =>
    -- It is read as the MIME header of a whole message.
    obtain ⟨hread, hmime⟩ := ofToken_eq_ok_iff.2 hbs
    rw [ofToken, read_of_mem (by decide) hus] at hread
    obtain ⟨rfl, rfl⟩ := Prod.mk.inj (Except.ok.inj hread)
    exact hmime ⟨rfl, rfl⟩
  | danglingDot us =>
    obtain ⟨b, u, heq, -⟩ := exists_cons_of_dot hbs
    exact absurd heq (List.cons_ne_nil b u).symm
  | partZero vs => exact zero_cons_not_mem_token hbs
  | innerPartZero us vs =>
    obtain ⟨b, u, heq, hb⟩ := exists_cons_of_dot hbs
    exact hb (List.cons.inj heq).1.symm
  | @longerName k us vs hkind hus hno =>
    obtain ⟨b, u, heq, hb⟩ := hword hkind hus vs
    rw [heq] at hno hbs
    exact (not_mem_token_of_word hb hno).1 hbs
  | @longerNameOfPart ms k ts us vs hts hkind hus hno =>
    obtain ⟨b, u, heq, hb⟩ := hword hkind hus vs
    rw [heq] at hno hbs
    exact (not_mem_token_of_word hb hno).2 hts hbs

end SectionKind

namespace BodyElement

/-! ### The grammar -/

/-- The name of a header field, which is no word if it has a bracket. -/
def FieldName (ctx : Context) : List UInt8 → String → Prop := WordOrString isFieldNameChar ctx

/-- The names of header fields behind a section, if it has them. -/
inductive Fields (ctx : Context) (kind : SectionKind) :
    List UInt8 → Option (OneOrMore String) → Prop
  | without (hkind : kind.hasFieldNames = false) : Fields ctx kind [] none
  | listed {w : List UInt8} {names : OneOrMore String} (hkind : kind.hasFieldNames = true)
    (hnames : Decoder.Listed (FieldName ctx) w names) :
    Fields ctx kind (Octet.sp :: Octet.lparen :: w) (some names)

/-- A run of octets between angle brackets. -/
inductive Run : List UInt8 → OctetRun → Prop
  | mk {u v : List UInt8} {firstOctet octets : Nat} (hfirst : Decimal.IsNumber u firstOctet)
    (hoctets : Decimal.IsNumber v octets) (hne : octets ≠ 0) :
    Run (Octet.less :: (u ++ Octet.dot :: (v ++ [Octet.greater]))) ⟨firstOctet, octets⟩

/-- The run behind a section, if there is one. -/
inductive Run? : List UInt8 → Option OctetRun → Prop
  | all : Run? [] none
  | run {w : List UInt8} {run : OctetRun} (hrun : Run w run) : Run? w (some run)

/-- The octets of a part of the content that is asked for by a name. -/
def Spelled (ctx : Context) (name : BodyName) (w : List UInt8) (e : BodyElement) : Prop :=
  e.name = name ∧ ∃ token fields run, token ∈ SectionKind.token e.path e.kind ∧
    Fields ctx e.kind fields e.fieldNames ∧ Run? run e.run ∧
    w = Octet.lbracket :: (token ++ (fields ++ Octet.rbracket :: run))

/-! ### Decoding -/

variable {ctx : Context} {name : BodyName} {c d : Cursor} {e : BodyElement} {w s : List UInt8}

theorem decodeFieldNames_recognizes (ctx : Context) : Decoder.Recognizes (decodeFieldNames ctx)
    (fun w names => ∃ v, Decoder.Listed (FieldName ctx) v names ∧ w = Octet.lparen :: v)
      Anything := by
  have hname : Decoder.Recognizes (decodeFieldName ctx) (FieldName ctx) (Stops isFieldNameChar) :=
    Decoder.wordOrString_recognizes rfl rfl _ ctx
  have hbreak : ∀ b, isFieldNameChar b = true → Octet.isLineBreak b = false :=
    Octet.forall_octet (by decide +kernel)
  have hstart : ∀ w name, FieldName ctx w name → ∃ b ∈ w.head?, Octet.isLineBreak b = false := by
    rintro w name (⟨hne, hall⟩ | ⟨body, bs, -, -, rfl⟩ | ⟨h, -⟩)
    · obtain ⟨b, v, rfl⟩ := List.exists_cons_of_ne_nil hne
      exact ⟨b, rfl, hbreak b (List.all_eq_true.1 hall b (List.mem_cons_self ..))⟩
    · exact ⟨Octet.quote, rfl, rfl⟩
    · obtain ⟨v, rfl⟩ := Decoder.exists_cons_of_literal h
      exact ⟨Octet.lbrace, rfl, rfl⟩
  exact (Decoder.oneOrMore_recognizes (decodeFieldName_inline ctx).forward hname hstart
    (Stops.cons rfl) (Stops.cons rfl)).behind _

theorem decodeFieldList_recognizes (ctx : Context) (kind : SectionKind) :
    Decoder.Recognizes (decodeFieldList ctx kind) (Fields ctx kind) Anything := by
  intro c
  rw [decodeFieldList]
  split
  · rename_i hkind
    refine ((decodeFieldNames_recognizes ctx).map some).spaced.congr (fun w names => ?_) c
    constructor
    · rintro ⟨_, ⟨names, ⟨v, hv, rfl⟩, rfl⟩, rfl⟩
      exact .listed hkind hv
    · rintro (hno | ⟨-, hv⟩)
      · simp [hkind] at hno
      · exact ⟨_, ⟨_, ⟨_, hv, rfl⟩, rfl⟩, rfl⟩
  · rename_i hkind
    have hno : kind.hasFieldNames = false := by simpa using hkind
    refine (Decoder.RecognizesAt.pure none).congr fun w s names _ => ?_
    constructor
    · rintro ⟨rfl, rfl⟩
      exact .without hno
    · rintro (- | ⟨h, -⟩)
      · exact ⟨rfl, rfl⟩
      · exact absurd h hkind

/-- The two numbers of a run, which may be zero. -/
def decodeCounts : Decoder (Nat × Nat) := do
  Decoder.expect Octet.less
  let firstOctet ← Decoder.number
  Decoder.expect Octet.dot
  let octets ← Decoder.number
  Decoder.expect Octet.greater
  return (firstOctet, octets)

theorem decodeCounts_recognizes : Decoder.Recognizes decodeCounts (fun w counts => ∃ u v,
    Decimal.IsNumber u counts.1 ∧ Decimal.IsNumber v counts.2 ∧
      w = Octet.less :: (u ++ Octet.dot :: (v ++ [Octet.greater]))) Anything := by
  have heq : decodeCounts = (do
      Decoder.expect Octet.less
      let firstOctet ← (do let n ← Decoder.number; Decoder.expect Octet.dot; return n)
      let octets ← (do let n ← Decoder.number; Decoder.expect Octet.greater; return n)
      return (firstOctet, octets)) := by
    simp only [decodeCounts, bind_assoc, pure_bind]
  have hend : ∀ {b : UInt8}, Octet.isNumberEnd b = true → ∀ s, NumberEnds (b :: s) := by
    intro b hb s b' hb'
    obtain rfl : b = b' := Option.some.inj hb'
    exact hb
  have hsecond := Decoder.number_recognizes.closed (G := Anything) Octet.greater (hend rfl)
  rw [heq]
  refine (((Decoder.number_recognizes.closed Octet.dot (hend rfl)).bind (F := Anything)
    (fun firstOctet => hsecond.map (Prod.mk firstOctet))
    fun _ _ _ _ _ _ => trivial).behind Octet.less).congr fun w counts => ?_
  constructor
  · rintro ⟨_, ⟨_, firstOctet, _, ⟨u, hu, rfl⟩, ⟨octets, ⟨v, hv, rfl⟩, rfl⟩, rfl⟩, rfl⟩
    exact ⟨u, v, hu, hv, by simp⟩
  · rintro ⟨u, v, hu, hv, rfl⟩
    exact ⟨_, ⟨_, counts.1, _, ⟨u, hu, rfl⟩, ⟨counts.2, ⟨v, hv, rfl⟩, rfl⟩, rfl⟩, by simp⟩

theorem decodeRun_eq : decodeRun = (do
    let counts ← decodeCounts
    if counts.2 = 0 then Decoder.reject .emptyRun else return ⟨counts.1, counts.2⟩) := by
  simp only [decodeRun, decodeCounts, bind_assoc, pure_bind]

theorem decodeRun_recognizes : Decoder.Recognizes decodeRun Run Anything := by
  rw [decodeRun_eq]
  refine (decodeCounts_recognizes.check (P := fun counts run =>
    counts.2 ≠ 0 ∧ run = (⟨counts.1, counts.2⟩ : OctetRun)) fun counts c => ?_).congr
      fun w run => ?_
  · by_cases hzero : counts.2 = 0
    · rw [if_pos hzero]
      exact .reject fun w run h => h.2.1 hzero
    · rw [if_neg hzero]
      exact (Decoder.RecognizesAt.pure _).congr fun w s run _ => by simp [hzero]
  · constructor
    · rintro ⟨counts, ⟨u, v, hu, hv, rfl⟩, hne, rfl⟩
      exact .mk hu hv hne
    · rintro ⟨hu, hv, hne⟩
      exact ⟨(_, _), ⟨_, _, hu, hv, rfl⟩, hne, rfl⟩

/-- A run is read whenever it is announced. -/
theorem decodeRun?_recognizesAt (c : Cursor) : Decoder.RecognizesAt decodeRun?
    (fun w run => Run? w run ∧ (run = none → c.rest.head? ≠ some Octet.less)) Anything c := by
  by_cases hless : c.rest.head? = some Octet.less
  · refine .of_eq (y := do return some (← decodeRun)) ?_ fun hc => ?_
    · refine (decodeRun_recognizes.map some c).congr fun w s run _ => ?_
      constructor
      · rintro ⟨run, hrun, rfl⟩
        exact ⟨.run hrun, fun h => absurd h (Option.some_ne_none run)⟩
      · rintro ⟨- | hrun, hno⟩
        · exact absurd hless (hno rfl)
        · exact ⟨_, hrun, rfl⟩
    · rw [decodeRun?, Decoder.bind_of_ok (Decoder.nextIs_apply hc _), if_pos (by simp [hless])]
  · refine .of_eq (y := pure none) ?_ fun hc => ?_
    · refine (Decoder.RecognizesAt.pure none).congr fun w s run hrest => ?_
      constructor
      · rintro ⟨rfl, rfl⟩
        exact ⟨.all, fun _ => hless⟩
      · rintro ⟨- | ⟨-, -, -⟩, -⟩
        · exact ⟨rfl, rfl⟩
        · exact absurd (by rw [hrest]; rfl) hless
    · rw [decodeRun?, Decoder.bind_of_ok (Decoder.nextIs_apply hc _), if_neg (by simpa using hless)]

theorem decodeSection_recognizes : Decoder.Recognizes decodeSection
    (fun w spec => w.all isSectionChar = true ∧ SectionKind.ofToken w = .ok spec)
    (Stops isSectionChar) := by
  refine ((Decoder.takeWhile_recognizes isSectionChar).token .bodySection
    SectionKind.ofToken).congr fun w spec => ?_
  constructor
  · rintro ⟨_, ⟨rfl, hall⟩, hspec⟩
    exact ⟨hall, hspec⟩
  · rintro ⟨hall, hspec⟩
    exact ⟨w, ⟨rfl, hall⟩, hspec⟩

/-- What stands in brackets. -/
def decodeBracketed (ctx : Context) :
    Decoder ((List Nat × SectionKind) × Option (OneOrMore String)) := do
  Decoder.expect Octet.lbracket
  let spec ← decodeSection
  let fieldNames ← decodeFieldList ctx spec.2
  Decoder.expect Octet.rbracket
  return (spec, fieldNames)

/-- The octets of what stands in brackets. -/
def Bracketed (ctx : Context) (w : List UInt8)
    (r : (List Nat × SectionKind) × Option (OneOrMore String)) : Prop :=
  ∃ token fields, (token.all isSectionChar = true ∧ SectionKind.ofToken token = .ok r.1) ∧
    Fields ctx r.1.2 fields r.2 ∧ w = Octet.lbracket :: (token ++ (fields ++ [Octet.rbracket]))

/-- Whatever is behind a section ends it. -/
theorem Fields.stops {kind : SectionKind} {fields : List UInt8}
    {names : Option (OneOrMore String)} (h : Fields ctx kind fields names) (s : List UInt8) :
    Stops isSectionChar (fields ++ Octet.rbracket :: s) := by
  cases h with
  | without => exact .cons rfl _
  | listed => exact .cons rfl _

theorem decodeBracketed_recognizes (ctx : Context) :
    Decoder.Recognizes (decodeBracketed ctx) (Bracketed ctx) Anything := by
  have heq : decodeBracketed ctx = (do
      Decoder.expect Octet.lbracket
      let spec ← decodeSection
      let fieldNames ← (do
        let names ← decodeFieldList ctx spec.2
        Decoder.expect Octet.rbracket
        return names)
      return (spec, fieldNames)) := by
    simp only [decodeBracketed, bind_assoc, pure_bind]
  have hclosed : ∀ spec : List Nat × SectionKind, Decoder.Recognizes (do
      let fieldNames ← (do
        let names ← decodeFieldList ctx spec.2
        Decoder.expect Octet.rbracket
        return names)
      return (spec, fieldNames)) (fun w r => ∃ names, (∃ fields, Fields ctx spec.2 fields names ∧
        w = fields ++ [Octet.rbracket]) ∧ r = (spec, names)) Anything := fun spec =>
    ((decodeFieldList_recognizes ctx spec.2).closed Octet.rbracket fun _ => trivial).map
      (Prod.mk spec)
  rw [heq]
  refine ((decodeSection_recognizes.bind hclosed ?_).behind Octet.lbracket).congr fun w r => ?_
  · rintro spec _ _ s ⟨names, ⟨fields, hfields, rfl⟩, -⟩ -
    rw [List.append_assoc]
    exact hfields.stops s
  · constructor
    · rintro ⟨_, ⟨token, spec, _, htoken, ⟨names, ⟨fields, hfields, rfl⟩, rfl⟩, rfl⟩, rfl⟩
      exact ⟨token, fields, htoken, hfields, rfl⟩
    · rintro ⟨token, fields, htoken, hfields, rfl⟩
      exact ⟨_, ⟨token, r.1, _, htoken, ⟨r.2, ⟨fields, hfields, rfl⟩, rfl⟩, rfl⟩, rfl⟩

theorem decode_eq_bracketed (ctx : Context) (name : BodyName) : decode ctx name = (do
    let parts ← decodeBracketed ctx
    let run ← decodeRun?
    Decoder.ofExcept
      ((ofParts name parts.1.1 parts.1.2 parts.2 run).mapError .invalidElement)) := by
  rw [decode_eq]
  simp only [decodeBracketed, bind_assoc, pure_bind]

/-- The parts that fit. -/
theorem ofParts_eq_ok_iff {path : List Nat} {kind : SectionKind}
    {fieldNames : Option (OneOrMore String)} {run : Option OctetRun} :
    ofParts name path kind fieldNames run = .ok e ↔ kind.hasFieldNames = fieldNames.isSome ∧
      ¬ (kind = .mime ∧ path = []) ∧ e = ⟨name, kind, path, fieldNames, run⟩ := by
  rw [ofParts]
  cases kind.hasFieldNames <;> cases fieldNames <;> simp <;> split_ifs <;> simp_all [eq_comm]

theorem Fields.hasFieldNames_eq {kind : SectionKind} {fields : List UInt8}
    {names : Option (OneOrMore String)} (h : Fields ctx kind fields names) :
    kind.hasFieldNames = names.isSome := by
  cases h with
  | without hkind => exact hkind
  | listed hkind => exact hkind

/-- What stands in brackets and the run behind it are a part of the content. -/
theorem spelled_iff : Spelled ctx name w e ↔ ∃ u v, ∃ (path : List Nat) (kind : SectionKind)
    (fieldNames : Option (OneOrMore String)) (run : Option OctetRun),
    Bracketed ctx u ((path, kind), fieldNames) ∧ Run? v run ∧
      ofParts name path kind fieldNames run = .ok e ∧ w = u ++ v := by
  constructor
  · rintro ⟨rfl, token, fields, run, htoken, hfields, hrun, rfl⟩
    obtain ⟨hread, hmime⟩ := SectionKind.ofToken_eq_ok_iff.2 htoken
    exact ⟨_, run, e.path, e.kind, e.fieldNames, e.run,
      ⟨token, fields, ⟨SectionKind.all_of_mem_token htoken, hread⟩, hfields, rfl⟩, hrun,
      ofParts_eq_ok_iff.2 ⟨hfields.hasFieldNames_eq, hmime, rfl⟩, by simp⟩
  · rintro ⟨_, run, path, kind, fieldNames, octets, ⟨token, fields, ⟨-, hread⟩, hfields, rfl⟩, hrun,
      hparts, rfl⟩
    obtain ⟨-, hmime, rfl⟩ := ofParts_eq_ok_iff.1 hparts
    exact ⟨rfl, token, fields, run, SectionKind.ofToken_eq_ok_iff.1 ⟨hread, hmime⟩, hfields, hrun,
      by simp⟩

theorem decode_sound (hc : c.Steady) (hrun : decode ctx name c = (.ok e, d)) :
    ∃ w, Spelled ctx name w e ∧ c.Reaches w d ∧
      (e.run = none → d.rest.head? ≠ some Octet.less) := by
  rw [decode_eq_bracketed] at hrun
  obtain ⟨⟨⟨path, kind⟩, fieldNames⟩, c', hbracketed, hrun⟩ := Decoder.exists_of_bind hrun
  obtain ⟨run, d', hrun', hrun⟩ := Decoder.exists_of_bind hrun
  obtain ⟨u, hu, hcc'⟩ := (decodeBracketed_recognizes ctx c).sound hc hbracketed
  obtain ⟨v, ⟨hv, hless⟩, hcd⟩ := (decodeRun?_recognizesAt c').sound (hcc'.steady hc) hrun'
  obtain ⟨hparts, rfl⟩ : ofParts name path kind fieldNames run = .ok e ∧ d' = d := by
    cases hparts : ofParts name path kind fieldNames run with
    | error error =>
      simp [hparts, Except.mapError, Decoder.ofExcept, Decoder.reject, Decoder.fail] at hrun
    | ok e' =>
      obtain ⟨rfl, rfl⟩ : e' = e ∧ d' = d := by
        simpa [hparts, Except.mapError, Decoder.ofExcept, Decoder.pure_apply] using hrun
      exact ⟨rfl, rfl⟩
  refine ⟨u ++ v, spelled_iff.2 ⟨u, v, path, kind, fieldNames, run, hu, hv, hparts, rfl⟩,
    hcc'.trans hcd, fun hnone => ?_⟩
  obtain ⟨-, -, rfl⟩ := ofParts_eq_ok_iff.1 hparts
  obtain rfl : run = none := hnone
  cases hv
  rw [← hcd.rest_eq_of (List.nil_append _).symm] at hless
  exact hless rfl

theorem decode_complete (hc : c.Listens) (hw : Spelled ctx name w e)
    (hs : e.run = none → s.head? ≠ some Octet.less) (hrest : c.rest = w ++ s) :
    ∃ d, decode ctx name c = (.ok e, d) ∧ c.Reaches w d ∧ d.Listens := by
  obtain ⟨u, v, path, kind, fieldNames, run, hu, hv, hparts, rfl⟩ := spelled_iff.1 hw
  rw [List.append_assoc] at hrest
  obtain ⟨c', hbracketed, hcc', hc'⟩ :=
    (decodeBracketed_recognizes ctx c).complete hc hu trivial hrest
  have hrest' := hcc'.rest_eq_of hrest
  have hless : run = none → c'.rest.head? ≠ some Octet.less := by
    rintro rfl
    obtain ⟨-, -, rfl⟩ := ofParts_eq_ok_iff.1 hparts
    cases hv
    rw [hrest']
    exact hs rfl
  obtain ⟨d, hrun, hcd, hd⟩ := (decodeRun?_recognizesAt c').complete hc' ⟨hv, hless⟩ trivial hrest'
  refine ⟨d, ?_, hcc'.trans hcd, hd⟩
  rw [decode_eq_bracketed, Decoder.bind_of_ok hbracketed, Decoder.bind_of_ok hrun, hparts]
  rfl

theorem decode_recognizes (ctx : Context) (name : BodyName) : Decoder.Recognizes (decode ctx name)
    (Spelled ctx name) (fun s => s.head? ≠ some Octet.less) := by
  refine fun c =>
    ⟨fun hc hrun => ?_, fun hc hw hs hrest => decode_complete hc hw (fun _ => hs) hrest⟩
  obtain ⟨w, hw, hreaches, -⟩ := decode_sound hc hrun
  exact ⟨w, hw, hreaches⟩

/-! ### Refusal -/

/-- A source that shows nothing shows no section. -/
theorem steady_of_decode (h : decode ctx name c = (.ok e, d)) : c.Steady := by
  rw [decode_eq] at h
  obtain ⟨_, c', hexpect, -⟩ := Decoder.exists_of_bind h
  exact (Decoder.exists_of_look hexpect).1

/-- The token behind the bracket is the section of what is decoded. -/
theorem mem_token_of_decode {token : List UInt8} (hrun : decode ctx name c = (.ok e, d))
    (hall : token.all isSectionChar = true) (hs : Stops isSectionChar s)
    (hrest : c.rest = Octet.lbracket :: (token ++ s)) :
    token ∈ SectionKind.token e.path e.kind := by
  obtain ⟨w, ⟨-, token', fields, run, htoken, hfields, -, rfl⟩, hreaches, -⟩ :=
    decode_sound (steady_of_decode hrun) hrun
  have heq : token ++ s = token' ++ (fields ++ Octet.rbracket :: (run ++ d.rest)) := by
    have := hrest.symm.trans hreaches.rest_eq
    simpa using (List.cons.inj this).2
  have hfront := congrArg (List.takeWhile isSectionChar) heq
  rw [Decoder.takeWhile_run (List.all_eq_true.1 hall) hs,
    Decoder.takeWhile_run (List.all_eq_true.1 (SectionKind.all_of_mem_token htoken))
      (hfields.stops _)] at hfront
  rwa [hfront]

/-- A run without octets is refused. -/
theorem decode_of_zero {u v : List UInt8} {n : Nat} (hc : c.Listens) (hw : Spelled ctx name w e)
    (hnone : e.run = none) (hu : Decimal.IsNumber u n) (hv : Decimal.IsNumber v 0)
    (hrest : c.rest = w ++ (Octet.less :: (u ++ Octet.dot :: (v ++ [Octet.greater])) ++ s)) :
    ∃ d, decode ctx name c = (.error (.rejected .emptyRun), d) := by
  obtain ⟨u', v', path, kind, fieldNames, run, hu', hv', hparts, rfl⟩ := spelled_iff.1 hw
  obtain ⟨-, -, rfl⟩ := ofParts_eq_ok_iff.1 hparts
  obtain rfl : run = none := hnone
  cases hv'
  rw [List.append_nil] at hrest
  obtain ⟨c', hbracketed, hcc', hc'⟩ :=
    (decodeBracketed_recognizes ctx c).complete hc hu' trivial hrest
  have hrest' := hcc'.rest_eq_of hrest
  obtain ⟨d, hcounts, -, -⟩ := (decodeCounts_recognizes c').complete (a := (n, 0)) hc'
    ⟨u, v, hu, hv, rfl⟩ trivial hrest'
  have hzero : decodeRun c' = (.error (.rejected .emptyRun), d) := by
    rw [decodeRun_eq, Decoder.bind_of_ok hcounts]
    rfl
  have hless : decodeRun? c' = (.error (.rejected .emptyRun), d) := by
    rw [decodeRun?, Decoder.bind_of_ok (Decoder.nextIs_apply hc'.steady _), hrest',
      if_pos (by rfl), Decoder.bind_of_error hzero]
  exact ⟨d, by rw [decode_eq_bracketed, Decoder.bind_of_ok hbracketed, Decoder.bind_of_error hless]⟩

/-- What is decoded is spelled by the consumed octets, with a run whenever one is announced, and
whatever spells a part of the content is decoded as that part.  Tokens that are no sections are
refused whatever stands around them, and so are runs without octets. -/
theorem sections_exact (ctx : Context) (name : BodyName) :
    (∀ c e d, decode ctx name c = (.ok e, d) → ∃ w, Spelled ctx name w e ∧ c.Reaches w d ∧
      (e.run = none → d.rest.head? ≠ some Octet.less)) ∧
    (∀ w e s (c : Cursor), Spelled ctx name w e → (e.run = none → s.head? ≠ some Octet.less) →
      c.Listens → c.rest = w ++ s → ∃ d, decode ctx name c = (.ok e, d) ∧ c.Reaches w d) ∧
    (∀ token s (c : Cursor) e d, SectionKind.Malformed token → token.all isSectionChar = true →
      Stops isSectionChar s → c.rest = Octet.lbracket :: (token ++ s) →
      decode ctx name c ≠ (.ok e, d)) ∧
    ∀ w e u v n s (c : Cursor), Spelled ctx name w e → e.run = none → Decimal.IsNumber u n →
      Decimal.IsNumber v 0 → c.Listens →
      c.rest = w ++ (Octet.less :: (u ++ Octet.dot :: (v ++ [Octet.greater])) ++ s) →
      ∃ d, decode ctx name c = (.error (.rejected .emptyRun), d) := by
  refine ⟨?_, ?_, ?_, ?_⟩
  · intro c e d hrun
    exact decode_sound (steady_of_decode hrun) hrun
  · intro w e s c hw hs hc hrest
    obtain ⟨d, hrun, hreaches, -⟩ := decode_complete hc hw hs hrest
    exact ⟨d, hrun, hreaches⟩
  · intro token s c e d htoken hall hs hrest hrun
    exact htoken.not_mem_token (mem_token_of_decode hrun hall hs hrest)
  · intro w e u v n s c hw hnone hu hv hc hrest
    exact decode_of_zero hc hw hnone hu hv hrest

/-- Two names of fields of an inner part, a word that goes on behind the name of a section, and a
run without octets. -/
theorem sections_exact_fields :
    (∃ w d, Spelled {} .bodyPeek w (.whole .bodyPeek .text) ∧
      (Cursor.ofOctets (Octet.ofText "[text])")).Reaches w d ∧ d.rest.head? ≠ some Octet.less) ∧
    (∃ d, decode {} .body (Cursor.ofOctets (Octet.ofText "[2.Header.Fields (To \"Cc\")]<7.9>)")) =
      (.ok ⟨.body, .headerFields, [2], some ⟨"To", ["Cc"]⟩, some ⟨7, 9⟩⟩, d) ∧
      d.rest = [Octet.rparen]) ∧
    (∀ e d, decode {} .body (Cursor.ofOctets (Octet.ofText "[1.MIMEX]")) ≠ (.ok e, d)) ∧
    ∃ d, decode {} .body (Cursor.ofOctets (Octet.ofText "[]<0.0>")) =
      (.error (.rejected .emptyRun), d) := by
  have hone : [0x31] ∈ SectionKind.path [1] := ⟨Decimal.isNumber_digit rfl rfl, by decide⟩
  have htwo : [0x32] ∈ SectionKind.path [2] := ⟨Decimal.isNumber_digit rfl rfl, by decide⟩
  refine ⟨?_, ?_, ?_, ?_⟩
  · obtain ⟨w, hw, hreaches, hless⟩ := (sections_exact {} .bodyPeek).1
      (Cursor.ofOctets (Octet.ofText "[text])")) (.whole .bodyPeek .text) _ rfl
    exact ⟨w, _, hw, hreaches, hless rfl⟩
  · have hto : FieldName {} (Octet.ofText "To") "To" := by
      have hall : (Octet.ofText "To").all isFieldNameChar = true := by decide
      have hword : FieldName {} (Octet.ofText "To") (Octet.toText (Octet.ofText "To")) :=
        .word (by decide) hall
      rwa [Octet.toText_ofText_of_all isWordClass_fieldNameChar.lt hall] at hword
    have hcc : FieldName {} (Octet.ofText "\"Cc\"") "Cc" :=
      .quoted
        ⟨Octet.ofText "Cc", Octet.ofText "Cc", .plain rfl (.plain rfl .nil), by decide, by decide⟩
    have hfields : Fields {} .headerFields (Octet.ofText " (To \"Cc\")") (some ⟨"To", ["Cc"]⟩) :=
      .listed rfl ⟨⟨⟨_, _⟩, [⟨_, _⟩]⟩,
        List.forall_mem_cons.2 ⟨hto, List.forall_mem_singleton.2 hcc⟩, rfl, by decide⟩
    have hname : (Octet.ofText "Header.Fields").map Octet.upper =
        (Octet.ofText SectionKind.headerFields.word).map Octet.upper := by decide
    have htoken : Octet.ofText "2.Header.Fields" ∈ SectionKind.token [2] .headerFields :=
      SectionKind.mem_token_cons.2 ⟨_, htwo, Or.inr ⟨by decide, _, hname, by decide⟩⟩
    have hrun : Run (Octet.ofText "<7.9>") ⟨7, 9⟩ :=
      .mk (u := [0x37]) (v := [0x39]) (Decimal.isNumber_digit rfl rfl)
        (Decimal.isNumber_digit rfl rfl)
        (by decide)
    have hspelled : Spelled {} .body (Octet.ofText "[2.Header.Fields (To \"Cc\")]<7.9>")
        ⟨.body, .headerFields, [2], some ⟨"To", ["Cc"]⟩, some ⟨7, 9⟩⟩ :=
      ⟨rfl, _, _, _, htoken, hfields, .run hrun, by decide⟩
    obtain ⟨d, hrun, hreaches⟩ := (sections_exact {} .body).2.1 _ _ [Octet.rparen]
      (Cursor.ofOctets (Octet.ofText "[2.Header.Fields (To \"Cc\")]<7.9>)")) hspelled (by simp)
      (Cursor.listens_ofOctets _) rfl
    exact ⟨d, hrun, hreaches.rest_eq_of rfl⟩
  · have hno : ∀ kind, Octet.ofText "MIME" ++ Octet.ofText "X" ∉ SectionKind.spelled kind := by
      intro kind h
      have hupper : (Octet.ofText "MIME" ++ Octet.ofText "X").map Octet.upper =
          (Octet.ofText kind.word).map Octet.upper := h
      revert hupper
      cases kind <;> decide
    have hmalformed : SectionKind.Malformed (Octet.ofText "1.MIMEX") := by
      have heq : Octet.ofText "1.MIMEX" =
          [0x31] ++ Octet.dot :: (Octet.ofText "MIME" ++ Octet.ofText "X") := by decide
      rw [heq]
      have hmime : Octet.ofText "MIME" ∈ SectionKind.spelled .mime := rfl
      exact .longerNameOfPart hone (by decide) hmime hno
    intro e d
    exact (sections_exact {} .body).2.2.1 _ [Octet.rbracket] _ e d hmalformed (by decide)
      (Stops.cons rfl _) (by decide)
  · exact (sections_exact {} .body).2.2.2 (Octet.ofText "[]") (.whole .body .content)
      [0x30] [0x30] 0
      [] (Cursor.ofOctets (Octet.ofText "[]<0.0>"))
      ⟨rfl, [], [], [], rfl, .without rfl, .all, rfl⟩ rfl (Decimal.isNumber_digit rfl rfl)
      (Decimal.isNumber_digit rfl rfl) (Cursor.listens_ofOctets _) rfl

end BodyElement

end ImapRequest
