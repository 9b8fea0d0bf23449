import ImapRequest.Proofs.Written.Items
import ImapRequest.Proofs.Yields

/-!
# Well-formed commands

What a decoder answers with can be relied on: words are not empty and of their class, sets are in
order, conjunctions have at least two members, and so on for every part of a command.  Some of this
is checked where a value is made; the rest holds because of the path that leads to the value, such
as the run of octets behind an atom.

* `Command.WellFormed` : all that can be relied on;
* `Command.wellFormed_of_decode` : it holds of every command.
-/

namespace ImapRequest

/-! ### Words -/

namespace Octet

theorem isTagChar_lt (b : UInt8) : isTagChar b = true → b < 0x80 := by
  revert b
  exact forall_octet (by decide +kernel)

/-- At least one octet, and all of a class. -/
def IsWord (p : UInt8 → Bool) (text : String) : Prop :=
  ofText text ≠ [] ∧ ∀ b ∈ ofText text, p b = true

theorem isWord_toText {p : UInt8 → Bool} (hp : ∀ b, p b = true → b < 0x80) {bs : List UInt8}
    (hne : bs ≠ []) (hbs : ∀ b ∈ bs, p b = true) : IsWord p (toText bs) := by
  rw [IsWord, ofText_toText fun b hb => hp b (hbs b hb)]
  exact ⟨hne, hbs⟩

end Octet

/-- A tag has at least one octet, and all are tag characters. -/
def Tag.WellFormed (t : Tag) : Prop := Octet.IsWord Octet.isTagChar t.text

theorem Tag.decode_yields : Decoder.Yields decode Tag.WellFormed :=
  Decoder.Yields.takeWhile1.map fun _ h => Octet.isWord_toText Octet.isTagChar_lt h.1 h.2

/-- An atom has at least one octet, and all are atom characters. -/
def Atom.WellFormed (a : Atom) : Prop := Octet.IsWord Octet.isAtomChar a.text

theorem Atom.decode_yields : Decoder.Yields decode Atom.WellFormed :=
  Decoder.Yields.takeWhile1.map fun _ h => Octet.isWord_toText Octet.isAtomChar_lt h.1 h.2

/-! ### Numbers and literals -/

namespace Cursor

theorem length_of_takeSingly {n : Nat} {c d : Cursor} {bs : List UInt8}
    (h : takeSingly n c = (.ok bs, d)) : bs.length = n := by
  induction n generalizing c d bs with
  | zero => cases h; rfl
  | succ n ih =>
    rw [takeSingly] at h
    rcases hb : c.consume with ⟨e | b, c'⟩
    · simp [hb] at h
    · rcases hmore : takeSingly n c' with ⟨e | more, c''⟩
      · simp [hb, hmore] at h
      · simp only [hb, hmore, Prod.mk.injEq, Except.ok.injEq] at h
        rw [← h.1, List.length_cons, ih hmore]

theorem length_of_takeWindows {short : IoError} {limit n : Nat} {c d : Cursor} {bs : List UInt8}
    (h : takeWindows short limit n c = (.ok bs, d)) : bs.length = n := by
  induction limit generalizing c d n bs with
  | zero =>
    cases n with
    | zero => cases h; rfl
    | succ n => cases h
  | succ limit ih =>
    cases n with
    | zero => cases h; rfl
    | succ n =>
      rw [takeWindows] at h
      rcases hshown : c.shown with e | _ | ⟨b, shown⟩
      · simp [hshown] at h
      · simp [hshown] at h
      · simp only [hshown] at h
        generalize htaken : (b :: shown).take (n + 1) = taken at h
        have hle : taken.length ≤ n + 1 := by rw [← htaken]; exact List.length_take_le ..
        rcases hmore : takeWindows short limit (n + 1 - taken.length) (c.advance taken.length) with
          ⟨e | more, c'⟩
        · simp [hmore] at h
        · simp only [hmore, Prod.mk.injEq, Except.ok.injEq] at h
          rw [← h.1, List.length_append, ih hmore]
          omega

/-- As many octets are taken as were to be taken. -/
theorem length_of_take {n : Nat} {c d : Cursor} {bs : List UInt8} (h : c.take n = (.ok bs, d)) :
    bs.length = n := by
  rw [take] at h
  split at h
  · split at h
    · cases h
    · simp only [Prod.mk.injEq, Except.ok.injEq] at h
      rw [← h.1, List.length_take]
      omega
  · exact length_of_takeSingly h
  · exact length_of_takeWindows h

end Cursor

namespace Decoder

theorem take_yields (n : Nat) : Yields (take n) (·.length = n) := by
  intro c bs d h
  rw [take, ofIo] at h
  rcases htake : c.take n with ⟨e | bs', c'⟩
  · simp [htake, Except.mapError] at h
  · simp only [htake, Except.mapError, Prod.mk.injEq, Except.ok.injEq] at h
    exact h.1 ▸ Cursor.length_of_take htake

theorem positive_yields : Yields positive (· ≠ 0) :=
  .after fun _ => .ite (fun _ => .reject) fun hne => .pure hne

theorem announcement_yields (ctx : Context) : Yields (announcement ctx) (·.1 ≤ ctx.maxLiteral) := by
  refine .after fun _ => .after fun length => .after fun mode => .after fun _ => .ite (fun _ => ?_)
    fun hle => .after fun _ => .pure (Nat.not_lt.1 hle)
  cases mode with
  | onRequest => exact .reject
  | atOnce => exact .fail

theorem literalData_yields (length : Nat) :
    Yields (literalData length) (fun data => data.length = length ∧ 0 ∉ data) := by
  refine (take_yields length).bind fun data hdata => ?_
  split
  · exact .reject
  · rename_i hfind
    refine .pure ⟨hdata, fun hzero => ?_⟩
    have := List.findIdx?_eq_none_iff.1 hfind 0 hzero
    simp [Octet.isChar8] at this

/-- The data of a literal is not longer than the limit and has no NUL. -/
theorem literalOctets_yields (ctx : Context) :
    Yields (literalOctets ctx) (fun data => data.length ≤ ctx.maxLiteral ∧ 0 ∉ data) := by
  refine (announcement_yields ctx).bind fun ⟨length, mode⟩ hlength => ?_
  have hdata := (literalData_yields length).imp fun data h =>
    show data.length ≤ ctx.maxLiteral ∧ 0 ∉ data from ⟨h.1 ▸ hlength, h.2⟩
  exact .ite (fun _ => .after fun _ => hdata) fun _ => hdata

end Decoder

/-! ### Sets, flags and mailboxes -/

namespace SequenceSet

/-- A set has at least one range, no range starts at zero or ends before it starts, and each ends
before the next one starts. -/
structure WellFormed (s : SequenceSet) : Prop where
  ranges_ne_nil : s.ranges ≠ []
  bounds : ∀ r ∈ s.ranges, 1 ≤ r.low ∧ r.low ≤ r.high
  separated : s.ranges.Pairwise fun r next => r.high < next.low

/-- There are no other sets. -/
theorem wellFormed (s : SequenceSet) : s.WellFormed where
  ranges_ne_nil := s.ranges_ne_nil
  bounds r _ := ⟨r.one_le_low, r.low_le_high⟩
  separated := s.separated

end SequenceSet

namespace Flag

/-- The name of a flag is an atom, and that of an extension differs from those of the system flags
by more than letter case. -/
def WellFormed : Flag → Prop
  | extension name => name.WellFormed ∧ ∀ entry ∈ systemNames, sameLetters entry.1 name.text = false
  | keyword name => name.WellFormed
  | _ => True

/-- A list of flags has none twice. -/
structure ListWellFormed (flags : List Flag) : Prop where
  each : ∀ flag ∈ flags, flag.WellFormed
  nodup : flags.Nodup

theorem wellFormed_of_mem_systemNames {entry : String × Flag} (h : entry ∈ systemNames) :
    entry.2.WellFormed := by
  simp only [systemNames, List.mem_cons, List.not_mem_nil, or_false] at h
  rcases h with rfl | rfl | rfl | rfl | rfl <;> trivial

theorem wellFormed_ofBackslashed {name : Atom} (h : name.WellFormed) :
    (ofBackslashed name).WellFormed := by
  unfold ofBackslashed
  split
  · rename_i hfind
    exact wellFormed_of_mem_systemNames (List.mem_of_find?_eq_some hfind)
  · rename_i hfind
    exact ⟨h, fun entry hentry => by simpa using List.find?_eq_none.1 hfind entry hentry⟩

theorem decode_yields : Decoder.Yields decode WellFormed := by
  refine .after fun _ => .ite (fun _ => .after fun _ => ?_) fun _ => ?_
  · exact Atom.decode_yields.map fun _ => wellFormed_ofBackslashed
  · exact Atom.decode_yields.map fun _ h => h

/-- The list of what was read, with repetitions dropped. -/
theorem listWellFormed_distinct {flags : List Flag} (h : ∀ flag ∈ flags, flag.WellFormed) :
    ListWellFormed (distinct flags) where
  each flag hflag := h flag (mem_distinct.1 hflag)
  nodup := nodup_distinct flags

theorem decodeList_yields : Decoder.Yields decodeList ListWellFormed := by
  refine .after fun _ => .after fun _ => .ite (fun _ => .after fun _ => ?_) fun _ => ?_
  · exact .pure ⟨by simp, List.nodup_nil⟩
  · exact decode_yields.oneOrMore.map fun _ => listWellFormed_distinct

theorem decodeBare_yields : Decoder.Yields decodeBare ListWellFormed :=
  decode_yields.oneOrMore.map fun _ => listWellFormed_distinct

end Flag

theorem StoreRequest.decode_yields :
    Decoder.Yields decode (fun request => Flag.ListWellFormed request.flags) := by
  have hflags : Decoder.Yields (do
      if (← Decoder.peek) == Octet.lparen then Flag.decodeList else Flag.decodeBare)
      Flag.ListWellFormed :=
    .after fun _ => .ite (fun _ => Flag.decodeList_yields) fun _ => Flag.decodeBare_yields
  exact .after fun mode => .after fun response => .after fun _ => hflags.map fun _ h => h

namespace Mailbox

/-- Only `inbox` is called `INBOX`, in any letter case. -/
def WellFormed : Mailbox → Prop
  | inbox => True
  | other name => sameLetters name "INBOX" = false

theorem wellFormed_ofName (name : String) : (ofName name).WellFormed := by
  unfold ofName
  split
  · trivial
  · rename_i h
    exact Bool.eq_false_iff.2 h

theorem decode_yields (ctx : Context) : Decoder.Yields (decode ctx) WellFormed :=
  .after fun name => .pure (wellFormed_ofName name)

end Mailbox

/-! ### What a FETCH command asks for -/

namespace BodyElement

/-- The parts of an element fit. -/
structure WellFormed (e : BodyElement) : Prop where
  /-- Field names belong to two kinds of sections. -/
  fieldNames_isSome : e.fieldNames.isSome = true ↔ e.kind = .headerFields ∨
    e.kind = .headerFieldsNot
  /-- There is at least one field name, where there may be any. -/
  fieldNames_ne_nil : ∀ names ∈ e.fieldNames, names.toList ≠ []
  /-- Only parts have a MIME header. -/
  path_ne_nil : e.kind = .mime → e.path ≠ []
  path_ne_zero : ∀ n ∈ e.path, n ≠ 0
  octets_ne_zero : ∀ run ∈ e.run, run.octets ≠ 0

theorem wellFormed_whole (name : BodyName) {kind : SectionKind}
    (hfields : kind.hasFieldNames = false)
    (hmime : kind ≠ .mime) : (whole name kind).WellFormed where
  fieldNames_isSome := by cases kind <;> simp_all [whole, SectionKind.hasFieldNames]
  fieldNames_ne_nil := by simp [whole]
  path_ne_nil h := absurd h hmime
  path_ne_zero := by simp [whole]
  octets_ne_zero := by simp [whole]

theorem wellFormed_of_ofParts {name : BodyName} {path : List Nat} {kind : SectionKind}
    {fieldNames : Option (OneOrMore String)} {run : Option OctetRun} {e : BodyElement}
    (h : ofParts name path kind fieldNames run = .ok e) (hpath : ∀ n ∈ path, n ≠ 0)
    (hrun : ∀ r ∈ run, r.octets ≠ 0) : e.WellFormed := by
  unfold ofParts at h
  split at h
  · cases h
  · split at h
    · cases h
    · split at h
      · cases h
      · cases h
        exact {
          fieldNames_isSome := by
            cases kind <;> cases fieldNames <;> simp_all [SectionKind.hasFieldNames]
          fieldNames_ne_nil := by simp
          path_ne_nil := fun hkind => by simp_all
          path_ne_zero := hpath
          octets_ne_zero := hrun }

end BodyElement

/-- A number without a leading zero is not zero. -/
theorem Decimal.value_ne_zero {b : UInt8} (hb : Octet.isDigit b = true) (hne : b ≠ 0x30)
    (ds : List UInt8) : value (b :: ds) ≠ 0 := by
  have hpos : 0x30 < b.toNat := by
    simp only [Octet.isDigit, Bool.and_eq_true, decide_eq_true_eq, UInt8.le_iff_toNat_le] at hb
    exact Nat.lt_of_le_of_ne hb.1 fun h => hne (UInt8.toNat_inj.1 h.symm)
  have hle := le_extend (10 * 0 + Octet.digitValue b) ds
  rw [← extend_cons, Octet.digitValue] at hle
  rw [value]
  omega

theorem SequenceSet.ne_zero_of_readNumber {bs rest : List UInt8} {n : Nat}
    (h : readNumber bs = .ok (n, rest)) : n ≠ 0 := by
  simp only [readNumber] at h
  by_cases hds : ((bs.takeWhile Octet.isDigit).head?.all (· != 0x30) &&
      !(bs.takeWhile Octet.isDigit).isEmpty &&
      decide (Decimal.value (bs.takeWhile Octet.isDigit) ≤ Decimal.maxNumber)) = true
  · rw [if_pos hds, Except.ok.injEq, Prod.mk.injEq] at h
    rw [Bool.and_eq_true_iff, Bool.and_eq_true_iff] at hds
    rw [← h.1]
    cases hdigits : bs.takeWhile Octet.isDigit with
    | nil => simp [hdigits] at hds
    | cons b ds =>
      refine Decimal.value_ne_zero (List.mem_takeWhile_imp (l := bs) (by simp [hdigits])) ?_ ds
      simpa [hdigits] using hds.1.1
  · rw [if_neg hds] at h
    cases h

namespace SectionKind

theorem readPath_ne_zero (limit : Nat) (bs : List UInt8) : ∀ n ∈ (readPath limit bs).1, n ≠ 0 := by
  induction limit generalizing bs with
  | zero => simp [readPath]
  | succ limit ih =>
    rw [readPath]
    cases hnumber : SequenceSet.readNumber bs with
    | error left => simp
    | ok r =>
      obtain ⟨n, rest⟩ := r
      have hn : n ≠ 0 := SequenceSet.ne_zero_of_readNumber hnumber
      simp only
      split
      · rename_i after
        have hafter := ih after
        split
        · simpa using hn
        · rename_i ns left _ hread
          rw [hread] at hafter
          simpa using ⟨hn, hafter⟩
      · simpa using hn

theorem ofToken_ne_zero {token : List UInt8} {path : List Nat} {kind : SectionKind}
    (h : ofToken token = .ok (path, kind)) : ∀ n ∈ path, n ≠ 0 := by
  unfold ofToken at h
  cases hread : read token with
  | ok r =>
    simp only [hread] at h
    split at h
    · cases h; simp
    · cases h
  | error left =>
    have hpath := readPath_ne_zero token.length token
    rcases hnumbers : readPath token.length token with ⟨_ | ⟨n, ns⟩, rest⟩
    · simp only [hread, hnumbers] at h
      split at h
      · cases h; simp
      · cases h
    · rw [hnumbers] at hpath
      simp only [hread, hnumbers] at h
      split at h
      · cases h; exact hpath
      · cases h

end SectionKind

namespace BodyElement

theorem decodeRun_yields : Decoder.Yields decodeRun (·.octets ≠ 0) :=
  .after fun _ => .after fun _ => .after fun _ => .after fun _ => .after fun _ =>
    .ite (fun _ => .reject) fun hne => .pure hne

theorem decode_yields (ctx : Context) (name : BodyName) :
    Decoder.Yields (decode ctx name) WellFormed := by
  have hrun : Decoder.Yields (do
      if ← Decoder.nextIs Octet.less then
        return some (← decodeRun)
      else
        return none) (fun run => ∀ r ∈ run, r.octets ≠ 0) :=
    .after fun _ => .ite (fun _ => decodeRun_yields.map fun r hr => by simpa using hr)
      fun _ => .pure (by simp)
  refine .after fun _ => .after fun octets =>
    (Decoder.Yields.token (P := fun r => ∀ n ∈ r.1, n ≠ 0) fun r hr =>
        SectionKind.ofToken_ne_zero hr).bind
      fun ⟨path, kind⟩ hpath => .after fun fieldNames => .after fun _ => hrun.bind fun run hrun =>
        .ofExcept fun e he => ?_
  cases hparts : ofParts name path kind fieldNames run with
  | error error => simp [hparts, Except.mapError] at he
  | ok e' =>
    simp only [hparts, Except.mapError, Except.ok.injEq] at he
    exact he ▸ wellFormed_of_ofParts hparts hpath hrun

end BodyElement

namespace FetchItem

/-- An element of the content is well-formed. -/
def WellFormed : FetchItem → Prop
  | element e => e.WellFormed
  | _ => True

theorem named_wellFormed : ∀ entry ∈ named, entry.2.WellFormed := by
  simp only [named, List.forall_mem_cons, WellFormed, List.not_mem_nil, false_implies, implies_true,
    and_true, true_and]
  exact ⟨BodyElement.wellFormed_whole _ rfl (by simp), BodyElement.wellFormed_whole _ rfl (by simp),
    BodyElement.wellFormed_whole _ rfl (by simp)⟩

theorem decodeNamed_yields (ctx : Context) (word : String) :
    Decoder.Yields (decodeNamed ctx word) WellFormed := by
  unfold decodeNamed
  split
  · rename_i item hlookup
    obtain ⟨before, after, hnamed, -⟩ := List.lookup_eq_some_iff.1 hlookup
    exact .pure (named_wellFormed (word, item) (by simp [hnamed]))
  · refine .ite (fun _ => .after fun _ => .ite (fun _ => ?_) fun _ => .pure trivial) fun _ =>
      .ite (fun _ => ?_) fun _ => .reject
    · exact (BodyElement.decode_yields ctx .body).map fun _ h => h
    · exact (BodyElement.decode_yields ctx .bodyPeek).map fun _ h => h

theorem decode_yields (ctx : Context) : Decoder.Yields (decode ctx) WellFormed :=
  .after fun word => decodeNamed_yields ctx word

end FetchItem

namespace FetchData

/-- Something is asked for, and all elements of the content are well-formed. -/
structure WellFormed (d : FetchData) : Prop where
  not_empty : d.isEmpty = false
  elements : ∀ e ∈ d.elements, e.WellFormed

theorem isEmpty_add (d : FetchData) (item : FetchItem) : (d.add item).isEmpty = false := by
  cases item <;> simp [add, isEmpty]

theorem mem_elements_add {d : FetchData} {item : FetchItem} {e : BodyElement}
    (h : e ∈ (d.add item).elements) : e ∈ d.elements ∨ item = .element e := by
  cases item <;> simp_all [add, eq_comm]

/-- Asking for unique identifiers as well keeps a request well-formed. -/
theorem WellFormed.withUid {d : FetchData} (h : d.WellFormed) (byUid : Bool) :
    ({ d with uid := d.uid || byUid } : FetchData).WellFormed where
  not_empty := by
    cases byUid with
    | false => simpa using h.not_empty
    | true => simp [isEmpty]
  elements := h.elements

theorem wellFormed_ofItems {items : List FetchItem} (hne : items ≠ [])
    (h : ∀ item ∈ items, item.WellFormed) : (ofItems items).WellFormed := by
  -- Every attribute is added to a request that may still be empty.
  have helements : ∀ d : FetchData, (∀ e ∈ d.elements, e.WellFormed) →
      ∀ e ∈ (items.foldl add d).elements, e.WellFormed := by
    clear hne
    induction items with
    | nil => exact fun d hd => hd
    | cons item items ih =>
      refine fun d hd => ih (fun i hi => h i (by simp [hi])) _ fun e he => ?_
      rcases mem_elements_add he with he | rfl
      · exact hd e he
      · exact h (.element e) (by simp)
  refine ⟨?_, helements {} (by simp)⟩
  rw [ofItems, ← List.dropLast_append_getLast hne, List.foldl_append]
  exact isEmpty_add _ _

theorem wellFormed_expand (shorthand : FetchShorthand) : shorthand.expand.WellFormed := by
  cases shorthand <;> exact ⟨rfl, fun e he => absurd he List.not_mem_nil⟩

theorem decode_yields (ctx : Context) : Decoder.Yields (decode ctx) WellFormed := by
  refine .after fun _ => .ite (fun _ => .after fun _ => ?_) fun _ => .after fun word => ?_
  · exact (FetchItem.decode_yields ctx).oneOrMore.map fun items h =>
      wellFormed_ofItems items.toList_ne_nil h
  · split
    · exact .pure (wellFormed_expand _)
    · exact (FetchItem.decodeNamed_yields ctx word).map fun item h =>
        wellFormed_ofItems (by simp) (by simpa using h)

end FetchData

/-! ### Search keys -/

namespace SearchKey

mutual

/-- Conjunctions have at least two members, at any depth, and the values in all keys are
well-formed. -/
def WellFormed : SearchKey → Prop
  | .and keys => 2 ≤ keys.length ∧ AllWellFormed keys
  | .sequenceSet set | .uid set => set.WellFormed
  | .keyword flag | .unkeyword flag => flag.WellFormed
  | .older seconds | .younger seconds => seconds ≠ 0
  | .not key => WellFormed key
  | .or left right => WellFormed left ∧ WellFormed right
  | _ => True

/-- All of some keys are well-formed. -/
def AllWellFormed : List SearchKey → Prop
  | [] => True
  | key :: keys => WellFormed key ∧ AllWellFormed keys

end

theorem allWellFormed_iff {keys : List SearchKey} :
    AllWellFormed keys ↔ ∀ key ∈ keys, key.WellFormed := by
  induction keys with
  | nil => simp [AllWellFormed]
  | cons key keys ih => simp [AllWellFormed, ih]

/-- A single key is no conjunction, and several are one of at least two. -/
theorem wellFormed_conjunction {keys : OneOrMore SearchKey}
    (h : ∀ key ∈ keys.toList, key.WellFormed) :
    (conjunction keys).WellFormed := by
  obtain ⟨first, _ | ⟨second, more⟩⟩ := keys
  · exact h first (by simp [OneOrMore.toList])
  · simp only [conjunction, WellFormed]
    exact ⟨by simp [OneOrMore.toList], allWellFormed_iff.2 h⟩

end SearchKey

/-- A form makes a well-formed key of well-formed arguments. -/
def SearchForm.Sound : SearchForm → Prop
  | .plain key => key.WellFormed
  | .text make => ∀ text, (make text).WellFormed
  | .flag make => ∀ flag : Atom, flag.WellFormed → (make flag).WellFormed
  | .date make => ∀ date, (make date).WellFormed
  | .number make => ∀ n, (make n).WellFormed
  | .positive make => ∀ n, n ≠ 0 → (make n).WellFormed
  | .set make => ∀ set : SequenceSet, set.WellFormed → (make set).WellFormed
  | .header | .not | .or => True

namespace SearchKey

open Decoder

theorem forms_sound : ∀ entry ∈ forms, entry.2.Sound := by
  simp [forms, SearchForm.Sound, WellFormed]

theorem decodeForm_yields (ctx : Context) {key : Decoder SearchKey} (hkey : Yields key WellFormed)
    {form : SearchForm} (h : form.Sound) : Yields (decodeForm ctx key form) WellFormed := by
  cases form with
  | plain k => exact .pure h
  | text make => exact .after fun _ => .after fun text => .pure (h text)
  | header => exact .after fun _ => .after fun _ => .after fun _ => .after fun _ => .pure trivial
  | flag make => exact .after fun _ => Atom.decode_yields.map h
  | date make => exact .after fun _ => .after fun date => .pure (h date)
  | number make => exact .after fun _ => .after fun n => .pure (h n)
  | positive make => exact .after fun _ => positive_yields.map h
  | set make => exact .after fun _ => .after fun set => .pure (h set set.wellFormed)
  | not => exact .after fun _ => hkey.map fun k hk => hk
  | or => exact .after fun _ => hkey.bind fun left hleft => .after fun _ =>
      hkey.map fun right hright => ⟨hleft, hright⟩

theorem decodeNamed_yields (ctx : Context) {key : Decoder SearchKey} (hkey : Yields key WellFormed)
    (word : String) : Yields (decodeNamed ctx key word) WellFormed := by
  unfold decodeNamed
  split
  · rename_i form hlookup
    obtain ⟨before, after, hforms, -⟩ := List.lookup_eq_some_iff.1 hlookup
    exact decodeForm_yields ctx hkey (forms_sound (word, form) (by simp [hforms]))
  · exact .reject

theorem decodeWithin_yields (ctx : Context) (levels : Nat) :
    Yields (decodeWithin ctx levels) WellFormed := by
  induction levels with
  | zero => exact .reject
  | succ levels ih =>
    refine .after fun next => .ite (fun _ => .after fun _ => ?_)
      fun _ => .ite (fun _ => ?_) fun _ =>
      .ite (fun _ => .after fun word => ?_) fun _ => .reject
    · exact ih.oneOrMore.map fun _ => wellFormed_conjunction
    · exact .after fun set => .pure set.wellFormed
    · exact decodeNamed_yields ctx ih word

theorem decodeConjunction_yields (ctx : Context) {first : SearchKey} (h : first.WellFormed) :
    Yields (decodeConjunction ctx first) WellFormed :=
  (decodeWithin_yields ctx _).many.map fun more hmore =>
    wellFormed_conjunction (by simpa [OneOrMore.toList] using ⟨h, hmore⟩)

theorem decodeCriteria_yields (ctx : Context) :
    Yields (decodeCriteria ctx) (fun criteria => criteria.2.WellFormed) := by
  refine .after fun _ => .ite (fun _ => .after fun word => .ite (fun _ => ?_) fun _ => ?_)
    fun _ => ?_
  · exact .after fun _ => .after fun charset => .after fun _ => (decodeWithin_yields _ _).bind
      fun first hfirst => (decodeConjunction_yields _ hfirst).map fun _ h => h
  · exact (decodeNamed_yields ctx (decodeWithin_yields _ _) word).bind fun first hfirst =>
      (decodeConjunction_yields _ hfirst).map fun _ h => h
  · exact (decodeWithin_yields _ _).bind fun first hfirst =>
      (decodeConjunction_yields _ hfirst).map fun _ h => h

end SearchKey

/-! ### Commands -/

namespace CommandBody

/-- All parts of a body are well-formed, messages are not longer than the limit on literals, and
what is fetched for unique identifiers has these. -/
def WellFormed (limit : Nat) : CommandBody → Prop
  | select mailbox | examine mailbox | create mailbox | delete mailbox | subscribe mailbox
  | unsubscribe mailbox | list mailbox _ | lsub mailbox _ | status mailbox _ => mailbox.WellFormed
  | rename source target => source.WellFormed ∧ target.WellFormed
  | append mailbox flags _ message =>
    mailbox.WellFormed ∧ Flag.ListWellFormed flags ∧ message.length ≤ limit ∧ 0 ∉ message
  | uidExpunge uids => uids.WellFormed
  | search _ criteria _ => criteria.WellFormed
  | fetch messages data byUid =>
    messages.WellFormed ∧ data.WellFormed ∧ (byUid = true → data.uid = true)
  | store messages request _ => messages.WellFormed ∧ Flag.ListWellFormed request.flags
  | copy messages mailbox _ => messages.WellFormed ∧ mailbox.WellFormed
  | capability | noop | logout | login .. | check | close | expunge => True

open Decoder

theorem decodeMailbox_yields (ctx : Context) : Yields (decodeMailbox ctx) Mailbox.WellFormed :=
  .after fun _ => Mailbox.decode_yields ctx

theorem decodeAppendFlags_yields : Yields decodeAppendFlags Flag.ListWellFormed := by
  refine .after fun _ => .ite (fun _ => ?_) fun _ => .pure ⟨by simp, List.nodup_nil⟩
  exact Flag.decodeList_yields.bind fun flags h => .after fun _ => .pure h

theorem decodeArguments_yields (ctx : Context) (byUid : Bool) (verb : Verb) :
    Yields (decodeArguments ctx byUid verb) (WellFormed ctx.maxLiteral) := by
  have hmailbox := decodeMailbox_yields ctx
  cases verb with
  | capability | noop | logout | check | close => exact .pure trivial
  | login => exact .after fun _ => .after fun _ => .after fun _ => .after fun _ => .pure trivial
  | select | examine | create | delete | subscribe | unsubscribe =>
    exact hmailbox.map fun _ h => h
  | rename => exact hmailbox.bind fun _ hsource => hmailbox.map fun _ htarget => ⟨hsource, htarget⟩
  | list | lsub | status => exact hmailbox.bind fun _ h => .after fun _ => .after fun _ => .pure h
  | append =>
    exact hmailbox.bind fun _ hmailbox => .after fun _ => decodeAppendFlags_yields.bind
      fun _ hflags => .after fun _ => (literalOctets_yields ctx).map fun _ hmessage =>
        ⟨hmailbox, hflags, hmessage⟩
  | expunge =>
    exact .ite (fun _ => .after fun uids => .pure uids.wellFormed) fun _ => .pure trivial
  | search => exact .after fun _ => (SearchKey.decodeCriteria_yields ctx).map fun _ h => h
  | fetch =>
    exact .after fun messages => .after fun _ => (FetchData.decode_yields ctx).map fun data hdata =>
      ⟨messages.wellFormed, hdata.withUid byUid, fun h => by simp [h]⟩
  | store =>
    exact .after fun messages => .after fun _ => StoreRequest.decode_yields.map fun _ hflags =>
      ⟨messages.wellFormed, hflags⟩
  | copy =>
    exact .after fun messages => hmailbox.map fun _ hmailbox => ⟨messages.wellFormed, hmailbox⟩

end CommandBody

namespace Command

/-- The tag and the body of a command are well-formed. -/
structure WellFormed (limit : Nat) (c : Command) : Prop where
  tag : c.tag.WellFormed
  body : c.body.WellFormed limit

theorem decode_yields (ctx : Context) {tag : Tag} (htag : tag.WellFormed) (byUid : Bool)
    (name : String) : Decoder.Yields (decode ctx tag byUid name) (WellFormed ctx.maxLiteral) := by
  unfold decode
  split
  · rename_i verb _
    have hbody : Decoder.Yields (CommandBody.decode ctx byUid verb)
        (CommandBody.WellFormed ctx.maxLiteral) :=
      .ite (fun _ => .reject) fun _ => (CommandBody.decodeArguments_yields ctx byUid verb).bind
        fun body h => .after fun _ => .pure h
    exact hbody.map fun body h => ⟨htag, h⟩
  · exact .reject

theorem decodeCommand_yields (ctx : Context) {tag : Tag} (htag : tag.WellFormed) :
    Decoder.Yields (Request.decodeCommand ctx tag) (WellFormed ctx.maxLiteral) :=
  .after fun _ => .after fun word => .ite
    (fun _ => .after fun _ => .after fun name => decode_yields ctx htag true name)
    fun _ => decode_yields ctx htag false word

/-- Every command that comes out of a request is well-formed, whatever the request, the context and
the source. -/
theorem wellFormed_of_decode (ctx : Context) (c e : Cursor) (command : Command)
    (h : Request.decode ctx c = (.ok (.command command), e)) :
    command.WellFormed ctx.maxLiteral := by
  have hdecode : Decoder.Yields (Request.decode ctx)
      (fun request => ∀ command, request = .command command →
        command.WellFormed ctx.maxLiteral) := by
    refine Tag.decode_yields.attempt.bind fun tag htag => ?_
    cases tag with
    | error error => exact .after fun _ => .pure (by simp)
    | ok tag =>
      refine (decodeCommand_yields ctx (htag tag rfl)).attempt.bind fun command hcommand => ?_
      cases command with
      | error error => exact .after fun _ => .pure (by simp)
      | ok command => exact .pure (by simpa using hcommand)
  exact hdecode h command rfl

/-- A group of a keyword and a number of seconds. -/
theorem wellFormed_of_decode_search :
    Request.decode {} (.ofOctets (Octet.ofText "a SEARCH (KEYWORD $x YOUNGER 1)\r\n")) =
        (.ok (.command ⟨⟨"a"⟩, .search none (.and [.keyword ⟨"$x"⟩, .younger 1]) false⟩),
          ⟨[], 33, [], .memory⟩) ∧
      WellFormed 67108864 ⟨⟨"a"⟩, .search none (.and [.keyword ⟨"$x"⟩, .younger 1]) false⟩ := by
  have hrun : Request.decode {} (.ofOctets (Octet.ofText "a SEARCH (KEYWORD $x YOUNGER 1)\r\n")) =
      (.ok (.command ⟨⟨"a"⟩, .search none (.and [.keyword ⟨"$x"⟩, .younger 1]) false⟩),
        ⟨[], 33, [], .memory⟩) := by cbv
  exact ⟨hrun, wellFormed_of_decode {} _ _ _ hrun⟩

end Command

end ImapRequest
