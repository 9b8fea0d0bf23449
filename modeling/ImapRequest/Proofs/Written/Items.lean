import ImapRequest.Proofs.Arguments
import ImapRequest.Proofs.Written.Strings

/-!
# Renderings of mailboxes, flags and status items

`INBOX` and the system flags are the same in any letter case, so no other mailbox and no extension
flag is written like them.

* `Mailbox.written`, `Flag.written`, `StatusItem.written`, `StoreRequest.written` : the renderings;
* `Mailbox.decode_reads` and its like : all of them are read as the value.
-/

namespace ImapRequest

open Sent

namespace Octet

/-- Letter case is the same for octets and for the characters they stand for. -/
theorem toChar_upper (b : UInt8) : toChar (upper b) = (toChar b).toUpper := by
  revert b
  exact forall_octet (by decide +kernel)

theorem isAtomChar_upper (b : UInt8) : isAtomChar (upper b) = isAtomChar b := by
  revert b
  exact forall_octet (by decide +kernel)

theorem isAtomChar_lt (b : UInt8) : isAtomChar b = true → b < 0x80 := by
  revert b
  exact forall_octet (by decide +kernel)

end Octet

theorem sameLetters_toText (s : String) {as bs : List UInt8}
    (h : as.map Octet.upper = bs.map Octet.upper) :
    sameLetters s (Octet.toText as) = sameLetters s (Octet.toText bs) := by
  have htext : ∀ cs : List UInt8, (Octet.toText cs).toList.map Char.toUpper =
      (cs.map Octet.upper).map Octet.toChar := by
    intro cs
    simp [Octet.toText, Octet.toChar_upper]
  rw [sameLetters, sameLetters, htext, htext, h]

/-! ### Mailboxes -/

namespace Mailbox

/-- The renderings of a mailbox.  Its name is a string in any form. -/
def written (limit : Nat) : Mailbox → Language Sent
  | inbox => fun t => ∃ name, sameLetters name "INBOX" = true ∧ t ∈ Written.astring limit name
  | other name => Written.provided (sameLetters name "INBOX" = false) (Written.astring limit name)

theorem decode_reads {ctx : Context} (hctx : ctx.charset.ReadsAscii) (m : Mailbox) :
    Decoder.Reads (decode ctx) (m.written ctx.maxLiteral) Delimited m := by
  intro t ht s hs c hc hrest
  cases m with
  | inbox =>
    obtain ⟨name, hname, ht⟩ := ht
    rw [decode, Decoder.bind_of_ok (Decoder.astring_reads hctx name t ht s hs c hc hrest),
      show ofName name = inbox from if_pos hname]
    rfl
  | other name =>
    obtain ⟨hname, ht⟩ := ht
    rw [decode, Decoder.bind_of_ok (Decoder.astring_reads hctx name t ht s hs c hc hrest),
      show ofName name = other name from if_neg (by simp [hname])]
    rfl

/-- A mailbox whose name can be rendered and which is not another spelling of `INBOX`. -/
def Expressible (limit : Nat) : Mailbox → Prop
  | inbox => True
  | other name => sameLetters name "INBOX" = false ∧ Text.Expressible limit name

theorem possible_written {limit : Nat} {m : Mailbox} (h : m.Expressible limit) :
    Possible (m.written limit) := by
  cases m with
  | inbox =>
    obtain ⟨t, ht⟩ := @Possible.word Octet.isAstringChar "INBOX" (by decide) (by decide)
    exact ⟨t, "INBOX", by decide, Or.inl ht⟩
  | other name => exact .provided h.1 (.wordOrString h.2)

end Mailbox

namespace MailboxPattern

/-- The renderings of a pattern, which may have wildcards also without quotes. -/
def written (limit : Nat) (p : MailboxPattern) : Language Sent :=
  Written.wordOrString Octet.isListChar limit p.text

theorem isWordClass_listChar : Octet.IsWordClass Octet.isListChar where
  lt := Octet.forall_octet (by decide +kernel)
  quote := rfl
  lbrace := rfl
  sp := rfl
  rparen := rfl
  cr := rfl

theorem decode_reads {ctx : Context} (hctx : ctx.charset.ReadsAscii) (p : MailboxPattern) :
    Decoder.Reads (decode ctx) (p.written ctx.maxLiteral) Delimited p :=
  (Decoder.wordOrString_reads isWordClass_listChar hctx _ p.text).map MailboxPattern.mk

end MailboxPattern

/-! ### Status items -/

namespace StatusItem

/-- The keyword of an item. -/
def name : StatusItem → String
  | messages => "MESSAGES"
  | recent => "RECENT"
  | uidNext => "UIDNEXT"
  | uidValidity => "UIDVALIDITY"
  | unseen => "UNSEEN"

/-- The renderings of an item. -/
def written (item : StatusItem) : Language Sent := Written.keyword item.name

theorem ofKeyword_name (item : StatusItem) : ofKeyword item.name = some item := by
  cases item <;> decide

theorem isKeyword_name (item : StatusItem) : Octet.IsKeyword item.name := by
  cases item <;> decide

theorem decode_reads (item : StatusItem) : Decoder.Reads decode item.written Delimited item := by
  intro t ht s hs c hc hrest
  have hread := Decoder.keyword_reads item.isKeyword_name t ht s (hs.stops rfl rfl rfl) c hc hrest
  rw [decode, Decoder.bind_of_ok hread]
  simp only [ofKeyword_name]
  rfl

theorem decodeList_reads (items : OneOrMore StatusItem) :
    Decoder.Reads decodeList (Written.inParens written items) Anything items :=
  (Decoder.expect_reads _).andThen
    (Decoder.oneOrMore_reads (show Decoder.Inline 0 {} decode from decode_inline).forward items
      fun item _ => item.decode_reads)

end StatusItem

/-! ### Flags -/

namespace Flag

/-- Whether a name is that of a system flag, in any letter case. -/
def isSystemName (name : Atom) : Bool :=
  systemNames.any fun entry => sameLetters entry.1 name.text

/-- The renderings of the system flag with a name. -/
def system (name : String) : Language Sent :=
  Written.octets [Octet.backslash] * Written.keyword name

/-- The renderings of a flag. -/
def written : Flag → Language Sent
  | answered => system "Answered"
  | deleted => system "Deleted"
  | draft => system "Draft"
  | flagged => system "Flagged"
  | seen => system "Seen"
  | extension name => Written.provided (isSystemName name = false)
      (Written.octets [Octet.backslash] * Written.word Octet.isAtomChar name.text)
  | keyword name => Written.word Octet.isAtomChar name.text

end Flag

theorem Atom.decode_reads (a : Atom) :
    Decoder.Reads decode (Written.word Octet.isAtomChar a.text) Delimited a := by
  rintro t ht s hs c hc hrest
  have hread :=
    (Decoder.word_reads "atom").map Atom.ofOctets t ht s (hs.stops rfl rfl rfl) c hc hrest
  rw [Atom.ofOctets, Octet.toText_ofText_of_all Octet.isAtomChar_lt ht.2.1] at hread
  exact hread

namespace Flag

theorem system_reads {name : String} {flag : Flag}
    (hne : Octet.ofText name ≠ []) (hall : (Octet.ofText name).all Octet.isAtomChar = true)
    (hfind : (systemNames.find? fun entry => sameLetters entry.1 name).map (·.2) = some flag) :
    Decoder.Reads decode (system name) Delimited flag := by
  refine Decoder.Reads.look ((Written.starts_octets _ _).mul _) ?_
  rintro _ rfl
  refine (Decoder.consume_reads _).andThen ?_
  rintro t ⟨bs, hbs, rfl⟩ s hs c hc hrest
  have hall' : bs.all Octet.isAtomChar = true :=
    Octet.all_of_map_upper Octet.isAtomChar_upper hbs hall
  have hne' : bs ≠ [] := by
    rintro rfl
    exact hne (List.map_eq_nil_iff.1 hbs.symm)
  have hread := (Decoder.takeWhile1_reads hne' hall' "atom").map Atom.ofOctets _ rfl s
    (hs.stops rfl rfl rfl) c hc hrest
  have htext : Octet.toText (Octet.ofText name) = name :=
    Octet.toText_ofText_of_all Octet.isAtomChar_lt hall
  -- The system flag is found in any letter case.
  have hflag : ofBackslashed (Atom.ofOctets bs) = flag := by
    simp only [ofBackslashed, Atom.ofOctets, sameLetters_toText _ hbs, htext]
    obtain ⟨entry, hentry, rfl⟩ := Option.map_eq_some_iff.1 hfind
    rw [hentry]
  rw [Atom.decode, Decoder.bind_of_ok hread, hflag]
  rfl

theorem decode_reads (f : Flag) : Decoder.Reads decode f.written Delimited f := by
  cases f with
  | answered => exact system_reads (by decide) (by decide) (by decide)
  | deleted => exact system_reads (by decide) (by decide) (by decide)
  | draft => exact system_reads (by decide) (by decide) (by decide)
  | flagged => exact system_reads (by decide) (by decide) (by decide)
  | seen => exact system_reads (by decide) (by decide) (by decide)
  | extension name =>
    refine Decoder.Reads.provided fun hname => ?_
    have hflag : ofBackslashed name = extension name := by
      -- An extension is none of the system flags.
      have hfind : systemNames.find? (fun entry => sameLetters entry.1 name.text) = none := by
        simpa [isSystemName] using hname
      rw [ofBackslashed, hfind]
    refine Decoder.Reads.look ((Written.starts_octets _ _).mul _) ?_
    rintro _ rfl
    rw [← hflag]
    exact (Decoder.consume_reads _).andThen ((Atom.decode_reads name).map ofBackslashed)
  | keyword name =>
    refine Decoder.Reads.look (Starts.word _ _) fun b hb => ?_
    have hne : b ≠ Octet.backslash := by
      rintro rfl
      exact absurd hb (by decide)
    rw [if_neg (by simpa using hne)]
    exact (Atom.decode_reads name).map keyword

theorem distinctAfter_of_nodup {before fs : List Flag} (h : fs.Nodup)
    (hbefore : ∀ f ∈ fs, f ∉ before) :
    distinctAfter before fs = fs := by
  induction fs generalizing before with
  | nil => rfl
  | cons f fs ih =>
    obtain ⟨hf, hfs⟩ := List.nodup_cons.1 h
    rw [distinctAfter, if_neg (hbefore f (List.mem_cons_self ..)), ih hfs fun g hg hmem => ?_]
    rcases List.mem_cons.1 hmem with rfl | hmem
    · exact hf hg
    · exact hbefore g (List.mem_cons_of_mem _ hg) hmem

theorem distinct_of_nodup {fs : List Flag} (h : fs.Nodup) : distinct fs = fs :=
  distinctAfter_of_nodup h fun _ _ => List.not_mem_nil

/-- The renderings of flags in parentheses. -/
def list : List Flag → Language Sent
  | [] => Written.octets [Octet.lparen] * Written.octets [Octet.rparen]
  | f :: fs => Written.inParens written ⟨f, fs⟩

/-- The renderings of flags without parentheses. -/
def bare : List Flag → Language Sent
  | [] => 0
  | f :: fs => written f * Written.spaced written fs

theorem starts_written (f : Flag) :
    Starts (fun b => b ≠ Octet.lparen ∧ b ≠ Octet.rparen) f.written := by
  have hsystem : ∀ L, Starts (fun b => b ≠ Octet.lparen ∧ b ≠ Octet.rparen)
      (Written.octets [Octet.backslash] * L) := by
    intro L
    refine ((Written.starts_octets _ _).imp ?_).mul L
    rintro _ rfl
    exact ⟨by decide, by decide⟩
  cases f with
  | answered => exact hsystem _
  | deleted => exact hsystem _
  | draft => exact hsystem _
  | flagged => exact hsystem _
  | seen => exact hsystem _
  | extension name => exact Starts.provided fun _ => hsystem _
  | keyword name =>
    refine (Starts.word _ _).imp fun b hb => ⟨?_, ?_⟩
    · rintro rfl
      exact absurd hb (by decide)
    · rintro rfl
      exact absurd hb (by decide)

theorem decode_forward : Decoder.Forward decode :=
  (show Decoder.Inline 0 {} decode from decode_inline).forward

/-- Repeated flags are dropped. -/
theorem decodeList_reads (fs : List Flag) :
    Decoder.Reads decodeList (list fs) Anything (distinct fs) := by
  cases fs with
  | nil =>
    refine (Decoder.expect_reads _).andThen (Decoder.Reads.look (Written.starts_octets _ _) ?_)
    rintro _ rfl
    exact (Decoder.consume_reads _).map fun _ => []
  | cons f fs =>
    refine (Decoder.expect_reads _).andThen (Decoder.Reads.look (f.starts_written.mul _) ?_)
    rintro b ⟨-, hb⟩
    rw [if_neg (by simpa using hb)]
    exact (Decoder.oneOrMore_reads decode_forward ⟨f, fs⟩ fun g _ => g.decode_reads).map
      fun flags => distinct flags.toList

theorem bareContinues_advances : Decoder.Advances bareContinues :=
  Decoder.ifNext_advances _ (.pure true)

theorem bareContinues_reads_sp : Decoder.Reads bareContinues Written.sp Anything true :=
  Decoder.Reads.ifNext (Written.starts_octets _ _) ((Decoder.consume_reads _).map fun _ => true)

theorem decodeBare_reads {fs : List Flag} (h : fs ≠ []) :
    Decoder.Reads decodeBare (bare fs) Ended (distinct fs) := by
  obtain ⟨f, fs, rfl⟩ := List.exists_cons_of_ne_nil h
  have hstop : Decoder.Reads bareContinues 1 Ended false := by
    refine Decoder.Reads.ifNotNext (fun t ht s hs b hb => ?_) (.pure false)
    obtain rfl := (Language.mem_one t).1 ht
    obtain rfl : Octet.cr = b := Option.some.inj (hs.symm.trans hb)
    rfl
  have htail := Decoder.manyEnded_reads bareContinues_advances
    (show Decoder.Inline 0 {} bareContinues from bareContinues_inline).forward decode_forward
    bareContinues_reads_sp hstop fs fun g _ => ⟨g.decode_reads, fun _ _ _ => trivial⟩
  have hread : Decoder.Reads (Decoder.oneOrMore bareContinues decode) (bare (f :: fs)) Ended
      ⟨f, fs⟩ := by
    exact f.decode_reads.bind (htail.map (OneOrMore.mk f)) fun u hu s hs =>
      Decoder.delimited_of_mem_spacedEnded hu hs
  exact hread.map fun flags => distinct flags.toList

end Flag

namespace StoreRequest

/-- The sign that says how the flags are applied. -/
def sign : StoreMode → List UInt8
  | .replace => []
  | .add => [Octet.plus]
  | .remove => [Octet.minus]

/-- The word that says whether the new flags are answered. -/
def responseName : StoreResponse → String
  | .answer => "FLAGS"
  | .silent => "FLAGS.SILENT"

/-- The renderings of what a STORE command asks for. -/
def written (r : StoreRequest) : Language Sent :=
  Written.octets (sign r.mode) * (Written.keyword (responseName r.response) *
    (Written.sp * Written.provided r.flags.Nodup (Flag.list r.flags + Flag.bare r.flags)))

/-- What follows the sign: the word, which does not start like one. -/
def Unsigned (s : List UInt8) : Prop := ∃ b u, s = b :: u ∧ b ≠ Octet.plus ∧ b ≠ Octet.minus

theorem starts_responseName (r : StoreResponse) :
    Starts (fun b => b ≠ Octet.plus ∧ b ≠ Octet.minus) (Written.keyword (responseName r)) := by
  have hletter : ∀ b, Octet.upper b = Octet.upper 0x46 → b ≠ Octet.plus ∧ b ≠ Octet.minus := by
    intro b hb
    constructor <;>
    · rintro rfl
      exact absurd hb (by decide)
  cases r with
  | answer => exact (Written.starts_keyword (a := 0x46) rfl).imp hletter
  | silent => exact (Written.starts_keyword (a := 0x46) rfl).imp hletter

theorem isKeyword_responseName (r : StoreResponse) : Octet.IsKeyword (responseName r) := by
  cases r <;> decide

/-- A sign is read where it is one, and left out where there is none. -/
theorem decodeMode_of_rest {c : Cursor} (hc : c.Steady) (mode : StoreMode) {s : List UInt8}
    (hs : Unsigned s) (hrest : c.rest = sign mode ++ s) :
    decodeMode c = (.ok mode, c.advance (sign mode).length) := by
  obtain ⟨b, u, rfl, hplus, hminus⟩ := hs
  cases mode with
  | replace =>
    rw [decodeMode, Decoder.bind_of_ok (Decoder.peek_of_rest hc hrest),
      if_neg (by simpa using hplus), if_neg (by simpa using hminus)]
    rfl
  | add =>
    rw [decodeMode, Decoder.bind_of_ok (Decoder.peek_of_rest hc hrest),
      if_pos (beq_self_eq_true _), Decoder.bind_of_ok (Decoder.consume_of_rest hc hrest)]
    rfl
  | remove =>
    rw [decodeMode, Decoder.bind_of_ok (Decoder.peek_of_rest hc hrest), if_neg (by decide),
      if_pos (beq_self_eq_true _), Decoder.bind_of_ok (Decoder.consume_of_rest hc hrest)]
    rfl

theorem decodeMode_reads (mode : StoreMode) :
    Decoder.Reads decodeMode (Written.octets (sign mode)) Unsigned mode := by
  rintro _ rfl s hs c hc hrest
  rw [octets_plain] at hrest
  rw [decodeMode_of_rest hc.steady mode hs hrest, Cursor.after_plain]

theorem decodeResponse_reads (r : StoreResponse) :
    Decoder.Reads decodeResponse (Written.keyword (responseName r)) Delimited r := by
  intro t ht s hs c hc hrest
  have hread := Decoder.keyword_reads (isKeyword_responseName r) t ht s (hs.stops rfl rfl rfl)
    c hc hrest
  rw [decodeResponse, Decoder.bind_of_ok hread]
  cases r <;> rfl

/-- The flags, in parentheses or not. -/
def decodeFlags : Decoder (List Flag) := do
  if (← Decoder.peek) == Octet.lparen then Flag.decodeList else Flag.decodeBare

theorem decode_eq : decode = (do
    let mode ← decodeMode
    let response ← decodeResponse
    Decoder.sp
    let flags ← decodeFlags
    return { mode, response, flags }) := rfl

theorem decodeFlags_reads (fs : List Flag) :
    Decoder.Reads decodeFlags (Flag.list fs + Flag.bare fs) Ended (Flag.distinct fs) := by
  have hlist : Starts (· = Octet.lparen) (Flag.list fs) := by
    cases fs with
    | nil => exact (Written.starts_octets _ _).mul _
    | cons f fs => exact (Written.starts_octets _ _).mul _
  refine Decoder.Reads.add (Decoder.Reads.look hlist ?_) ?_
  · rintro _ rfl
    exact (Flag.decodeList_reads fs).anywhere
  · cases fs with
    | nil => exact fun t ht => absurd ht (Language.notMem_zero t)
    | cons f fs =>
      refine Decoder.Reads.look (f.starts_written.mul _) ?_
      rintro b ⟨hb, -⟩
      rw [if_neg (by simpa using hb)]
      exact Flag.decodeBare_reads (List.cons_ne_nil f fs)

theorem decode_reads (r : StoreRequest) : Decoder.Reads decode r.written Ended r := by
  have hflags : Decoder.Reads decodeFlags (Written.provided r.flags.Nodup
      (Flag.list r.flags + Flag.bare r.flags)) Ended r.flags := by
    refine Decoder.Reads.provided fun hnodup => ?_
    have hread := decodeFlags_reads r.flags
    rwa [Flag.distinct_of_nodup hnodup] at hread
  rw [decode_eq]
  refine (decodeMode_reads r.mode).bind ?_ fun u hu s _ => ?_
  · exact (decodeResponse_reads r.response).spaced
      (hflags.map fun flags => (⟨r.mode, r.response, flags⟩ : StoreRequest))
  · -- The sign is followed by the letter of the word.
    exact ((starts_responseName r.response).mul _).append hu s

end StoreRequest

/-! ### What can be rendered -/

theorem Atom.possible {a : Atom} (h : check (Octet.ofText a.text) = .ok ()) :
    Possible (Written.word Octet.isAtomChar a.text) := by
  obtain ⟨hne, hall⟩ := Word.check_eq_ok.1 h
  exact .word hne hall

namespace Flag

/-- A flag whose name is an atom, and no extension that spells a system flag. -/
def Expressible : Flag → Prop
  | extension name =>
    isSystemName name = false ∧ Atom.check (Octet.ofText name.text) = .ok ()
  | keyword name => Atom.check (Octet.ofText name.text) = .ok ()
  | _ => True

theorem possible_written {f : Flag} (h : f.Expressible) : Possible f.written := by
  have hsystem : ∀ name, Possible (system name) := fun name => (Possible.octets _).mul (.keyword _)
  cases f with
  | extension name => exact .provided h.1 ((Possible.octets _).mul (Atom.possible h.2))
  | keyword name => exact Atom.possible h
  | _ => exact hsystem _

theorem possible_list {fs : List Flag} (h : ∀ f ∈ fs, f.Expressible) : Possible (list fs) := by
  cases fs with
  | nil => exact (Possible.octets _).mul (Possible.octets _)
  | cons f fs => exact Possible.inParens ⟨f, fs⟩ fun g hg => possible_written (h g hg)

end Flag

namespace StoreRequest

/-- No flag is repeated, and all can be rendered. -/
def Expressible (r : StoreRequest) : Prop := r.flags.Nodup ∧ ∀ f ∈ r.flags, f.Expressible

theorem possible_written {r : StoreRequest} (h : r.Expressible) : Possible r.written :=
  (Possible.octets _).mul ((Possible.keyword _).mul
    (Possible.sp.mul (.provided h.1 ((Flag.possible_list h.2).add_left _))))

end StoreRequest

end ImapRequest
