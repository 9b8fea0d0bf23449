import ImapRequest.Proofs.Arguments
import ImapRequest.Session

/-!
# Sources can not be told apart

Octets in memory, a source that hands out one octet at a time and a stream give the same answers at
the same positions to every program of operations, where failures of a source count as failures
whatever their wording.  There are two ways out.  Where more octets are taken than there are, octets
in memory are all left, while the other sources are at their end; and a stream may fail to be
written to.  Until then a stream was told to go on as often as the others were asked for data.

* `Cursor.Mirrors` : the same position on another source;
* `Decoder.Composed.agree` : how two runs on different sources can end;
* `Operation` : the operations of a cursor, in any order;
* `Session.inStep` : programs and sessions on the three sources.
-/

namespace ImapRequest

open Decoder

namespace Cursor

/-- A stream that shows octets in windows, as its reads bring them in, and then ends or breaks. -/
def ofWindows (bs : List UInt8) (window : Nat) (reads : List Nat) (breaks : Bool)
    (writeLimit : Option Nat) : Cursor :=
  { rest := bs, source := .stream { window, reads, breaks, writeLimit } }

/-- Without a fixed length of its reads a stream shows as many octets as it can. -/
theorem ofWindows_nil (bs : List UInt8) (window : Nat) (breaks : Bool) (writeLimit : Option Nat) :
    ofWindows bs window [] breaks writeLimit =
      ofStream bs window (if breaks then some bs.length else none) writeLimit := by
  cases breaks <;> simp [ofWindows, ofStream]

/-- The octets written to the source so far. -/
def written (c : Cursor) : List UInt8 :=
  match c.source with
  | .stream link => link.written
  | _ => []

/-- The number of octets that can be written to the source, unless that is any number. -/
def writeLimit (c : Cursor) : Option Nat :=
  match c.source with
  | .stream link => link.writeLimit
  | _ => none

@[simp] theorem requests_drained (c : Cursor) : c.drained.requests = c.requests := by
  unfold drained
  split <;> rfl

/-- The client was told to go on each time it was asked for data. -/
def Acknowledged (c : Cursor) : Prop :=
  c.written = (List.replicate c.requests.length goAhead).flatten

/-- The source is no stream, so that asking for data can not fail. -/
def Direct (c : Cursor) : Prop := ∀ link, c.source ≠ .stream link

/-- The cursor `d` is at the same position as `c`, which is on no stream, in front of the same
octets and after the same requests for data. -/
structure Mirrors (c d : Cursor) : Prop where
  direct : c.Direct
  steady : d.Steady
  rest_eq : d.rest = c.rest
  position_eq : d.position = c.position
  requests_eq : d.requests = c.requests

namespace Direct

variable {c d : Cursor} {asks : Prop}

theorem steady (h : c.Direct) : c.Steady := fun link hlink => absurd hlink (h link)

theorem writeLimit_eq (h : c.Direct) : c.writeLimit = none := by
  unfold writeLimit
  cases hs : c.source with
  | memory => rfl
  | octets => rfl
  | stream link => exact absurd hs (h link)

theorem source_asked (h : c.Direct) : c.asked.source = c.source := by
  unfold asked
  cases hs : c.source with
  | memory => rfl
  | octets => rfl
  | stream link => exact absurd hs (h link)

end Direct

namespace Leads

variable {c d : Cursor} {asks : Prop}

theorem source_eq (h : c.Leads asks d) (hc : c.Direct) : d.source = c.source := by
  induction h with
  | refl => rfl
  | advance _ _ ih => exact ih
  | asked _ _ ih =>
    refine (Direct.source_asked fun link hlink => ?_).trans ih
    exact hc link (ih.symm.trans hlink)

/-- On a stream the link stays the same, but for what is written to it. -/
theorem exists_stream (h : c.Leads asks d) {link : Link} (hc : c.source = .stream link) :
    ∃ bs, d.source = .stream { link with written := bs } := by
  induction h with
  | refl => exact ⟨link.written, hc⟩
  | advance _ _ ih => exact ih
  | asked _ _ ih =>
    obtain ⟨bs, hbs⟩ := ih
    exact ⟨bs ++ goAhead, by simp only [Cursor.asked, hbs]⟩

theorem writeLimit_eq (h : c.Leads asks d) : d.writeLimit = c.writeLimit := by
  cases hs : c.source with
  | memory => simp only [writeLimit, h.source_eq (by simp [Direct, hs]), hs]
  | octets => simp only [writeLimit, h.source_eq (by simp [Direct, hs]), hs]
  | stream link =>
    obtain ⟨bs, hbs⟩ := h.exists_stream hs
    simp only [writeLimit, hbs, hs]

/-- By induction on what the operations do: only asking writes, and it writes once. -/
theorem acknowledged (h : c.Leads asks d) {link : Link} (hs : c.source = .stream link)
    (hc : c.Acknowledged) : d.Acknowledged := by
  induction h with
  | refl => exact hc
  | advance _ _ ih => exact ih
  | asked _ h ih =>
    obtain ⟨bs, hbs⟩ := h.exists_stream hs
    simp only [Acknowledged, written, hbs] at ih
    simp only [Acknowledged, written, Cursor.asked, hbs, ih, List.length_append,
      List.length_singleton, List.replicate_succ', List.flatten_append, List.flatten_singleton]

end Leads

theorem Direct.of_leads {c d : Cursor} {asks : Prop} (hc : c.Direct) (h : c.Leads asks d) :
    d.Direct := fun link hlink => hc link ((h.source_eq hc).symm.trans hlink)

namespace Mirrors

variable {c d e : Cursor}

theorem advance (h : c.Mirrors d) (n : Nat) : (c.advance n).Mirrors (d.advance n) where
  direct := h.direct
  steady := h.steady.advance n
  rest_eq := by rw [rest_advance, rest_advance, h.rest_eq]
  position_eq := by rw [position_advance, position_advance, h.position_eq]
  requests_eq := h.requests_eq

theorem asked (h : c.Mirrors d) : c.asked.Mirrors d.asked where
  direct := fun link hlink => h.direct link (h.direct.source_asked.symm.trans hlink)
  steady := h.steady.asked
  rest_eq := h.rest_eq
  position_eq := h.position_eq
  requests_eq := by rw [requests_asked, requests_asked, h.requests_eq, h.position_eq]

/-- Two sources that mirror the same one mirror each other. -/
theorem other (hcd : c.Mirrors d) (hce : c.Mirrors e) (hd : d.Direct) : d.Mirrors e where
  direct := hd
  steady := hce.steady
  rest_eq := hce.rest_eq.trans hcd.rest_eq.symm
  position_eq := hce.position_eq.trans hcd.position_eq.symm
  requests_eq := hce.requests_eq.trans hcd.requests_eq.symm

/-- Where too many octets are taken, sources other than memory are both at their end. -/
theorem drained (h : c.Mirrors d) (hd : d.source ≠ .memory)
    (hc : c.source = .memory → c.rest = []) : c.drained.Mirrors d.drained := by
  have hdrained : d.drained = d.advance c.rest.length := by
    unfold Cursor.drained
    rw [h.rest_eq]
    split
    · rename_i hs
      exact absurd hs hd
    · rfl
  rw [hdrained]
  unfold Cursor.drained
  split
  · rename_i hs
    rw [hc hs]
    exact h
  · exact h.advance _

end Mirrors

end Cursor

namespace Decoder

variable {α β : Type}

/-- The same answer, where failures of a source are not told apart. -/
def SameAnswer (r s : Except Failure α) : Prop :=
  r = s ∨ (∃ e, r = .error (.io e)) ∧ ∃ e, s = .error (.io e)

/-- A run that needed more octets than were left, and left them where they were. -/
def FellShort (run : Except Failure α × Cursor) : Prop :=
  (∃ e, run.1 = .error (.io e)) ∧ run.2.rest ≠ []

/-- Nothing keeps the client from being told to go on. -/
theorem request_of_unlimited {c : Cursor} (h : c.writeLimit = none) :
    request c = (.ok (), c.asked) := by
  unfold Cursor.writeLimit at h
  simp only [request, ofIo, Cursor.request, Cursor.asked]
  cases hs : c.source with
  | memory => rfl
  | octets => rfl
  | stream link =>
    rw [hs] at h
    dsimp only at h
    simp only [h, Option.any_none, Bool.false_eq_true, if_false]
    rfl

/-- How two runs on different sources can end. -/
inductive Agree (takes : Prop) : Except Failure α × Cursor → Except Failure α × Cursor → Prop
  | same {r s : Except Failure α} {d e : Cursor} (hanswer : SameAnswer r s) (h : d.Mirrors e) :
    Agree takes (r, d) (s, e)
  /-- More octets were to be taken than there are. -/
  | short (htakes : takes) {f g : IoError} {d e : Cursor} (h : d.Mirrors e) :
    Agree takes (.error (.io f), d.drained) (.error (.io g), e.drained)
  /-- The other source could not be written to. -/
  | unwritten {r : Except Failure α} {d e : Cursor} (hlimit : e.writeLimit ≠ none) :
    Agree takes (r, d) (.error (.io .writerFailed), e)

namespace SameAnswer

variable {r s t : Except Failure α}

theorem refl (r : Except Failure α) : SameAnswer r r := Or.inl rfl

theorem io (e f : IoError) : SameAnswer (.error (.io e) : Except Failure α) (.error (.io f)) :=
  Or.inr ⟨⟨e, rfl⟩, f, rfl⟩

theorem eq_of_ok {a : α} (h : SameAnswer (.ok a) s) : s = .ok a := by
  rcases h with h | ⟨⟨e, he⟩, -⟩
  · exact h.symm
  · simp at he

theorem exists_error {f : Failure} (h : SameAnswer (.error f) s) : ∃ g, s = .error g := by
  rcases h with h | ⟨-, e, he⟩
  · exact ⟨f, h.symm⟩
  · exact ⟨_, he⟩

end SameAnswer

namespace Agree

variable {takes : Prop} {x : Decoder α} {f : α → Decoder β} {c d : Cursor}

theorem bind (h : Agree takes (x c) (x d))
    (hf : ∀ a c' d', c'.Mirrors d' → Agree takes (f a c') (f a d')) :
    Agree takes ((x >>= f) c) ((x >>= f) d) := by
  rw [bind_apply, bind_apply]
  rcases hc : x c with ⟨r, c'⟩
  rcases hd : x d with ⟨s, d'⟩
  rw [hc, hd] at h
  cases h with
  | same hanswer h =>
    rcases hanswer with rfl | ⟨⟨e, rfl⟩, e', rfl⟩
    · cases r with
      | error g => exact .same (.refl _) h
      | ok a => exact hf a c' d' h
    · exact .same (.io e e') h
  | short htakes h => exact .short htakes h
  | unwritten hlimit => exact .unwritten hlimit

theorem attempt (h : Agree takes (x c) (x d)) :
    Agree takes (attempt x c) (attempt x d) := by
  unfold Decoder.attempt
  rcases hc : x c with ⟨r, c'⟩
  rcases hd : x d with ⟨s, d'⟩
  rw [hc, hd] at h
  cases h with
  | same hanswer h =>
    rcases hanswer with rfl | ⟨⟨e, rfl⟩, e', rfl⟩
    · rcases r with f | a
      · cases f <;> exact .same (.refl _) h
      · exact .same (.refl _) h
    · exact .same (.io e e') h
  | short htakes h => exact .short htakes h
  | unwritten hlimit => exact .unwritten hlimit

end Agree

/-- The other run fails for lack of octets, or gives the same answer at the same position. -/
theorem Agree.io_or_same {takes : Prop} {r s : Except Failure α} {d e : Cursor}
    (h : Agree takes (r, d) (s, e)) : (∃ io, s = .error (.io io)) ∨ s = r ∧ d.Mirrors e := by
  cases h with
  | same hanswer hmirrors =>
    rcases hanswer with rfl | ⟨-, io⟩
    · exact Or.inr ⟨rfl, hmirrors⟩
    · exact Or.inl io
  | short _ _ => exact Or.inl ⟨_, rfl⟩
  | unwritten _ => exact Or.inl ⟨_, rfl⟩

/-- By induction on the program: its operations agree, and what follows them starts at the same
position. -/
theorem Composed.agree {asks takes : Prop} {x : Decoder α} (h : Composed asks takes x) :
    ∀ {c d : Cursor}, c.Mirrors d → Agree takes (x c) (x d) := by
  induction h with
  | pure a => exact fun h => .same (.refl _) h
  | reject e => exact fun h => .same (.refl _) h
  | refuse length limit => exact fun h => .same (.refl _) h
  | bound =>
    intro c d h
    have hlength : Decoder.bound d = (.ok c.rest.length, d) := by rw [Decoder.bound, h.rest_eq]
    rw [hlength]
    exact .same (.refl _) h
  | peek =>
    intro c d h
    cases hrest : c.rest with
    | nil =>
      obtain ⟨e, he⟩ := peek_of_nil hrest
      obtain ⟨e', he'⟩ := peek_of_nil (h.rest_eq.trans hrest)
      rw [he, he']
      exact .same (.io e e') h
    | cons b bs =>
      rw [peek_of_rest h.direct.steady hrest, peek_of_rest h.steady (h.rest_eq.trans hrest)]
      exact .same (.refl _) h
  | consume =>
    intro c d h
    cases hrest : c.rest with
    | nil =>
      obtain ⟨e, he⟩ := consume_of_nil hrest
      obtain ⟨e', he'⟩ := consume_of_nil (h.rest_eq.trans hrest)
      rw [he, he']
      exact .same (.io e e') h
    | cons b bs =>
      rw [consume_of_rest h.direct.steady hrest, consume_of_rest h.steady (h.rest_eq.trans hrest)]
      exact .same (.refl _) (h.advance 1)
  | isConsumed =>
    intro c d h
    rw [isConsumed_apply h.direct.steady, isConsumed_apply h.steady, h.rest_eq]
    exact .same (.refl _) h
  | skip n =>
    intro c d h
    by_cases hn : n ≤ c.rest.length
    · rw [skip_of_le h.direct.steady hn, skip_of_le h.steady (h.rest_eq ▸ hn)]
      exact .same (.refl _) (h.advance n)
    · -- Every source is at its end, memory as well.
      have hlt : c.rest.length < n := Nat.not_le.1 hn
      obtain ⟨e, he⟩ := skip_short h.direct.steady hlt
      obtain ⟨e', he'⟩ := skip_short h.steady (h.rest_eq ▸ hlt)
      rw [he, he', h.rest_eq]
      exact .same (.io e e') (h.advance _)
  | take htakes n =>
    intro c d h
    by_cases hn : n ≤ c.rest.length
    · rw [take_of_le h.direct.steady hn, take_of_le h.steady (h.rest_eq ▸ hn), h.rest_eq]
      exact .same (.refl _) (h.advance n)
    · have hlt : c.rest.length < n := Nat.not_le.1 hn
      obtain ⟨e, he⟩ := take_short h.direct.steady hlt
      obtain ⟨e', he'⟩ := take_short h.steady (h.rest_eq ▸ hlt)
      rw [he, he']
      exact .short htakes h
  | request =>
    intro c d h
    rw [request_of_unlimited h.direct.writeLimit_eq]
    cases hlimit : d.writeLimit with
    | none =>
      rw [request_of_unlimited hlimit]
      exact .same (.refl _) h.asked
    | some n =>
      rcases request_eq d with hd | hd <;> rw [hd]
      · exact .same (.refl _) h.asked
      · exact .unwritten (by simp [hlimit])
  | bind _ _ ihx ihf => exact fun h => (ihx h).bind fun a _ _ h => ihf a h
  | attempt _ ih => exact fun h => (ih h).attempt

/-- Only taking several octets at once fails in front of octets. -/
theorem Composed.rest_of_io {asks : Prop} {x : Decoder α} (h : Composed asks False x) :
    ∀ {c d : Cursor} {e : IoError}, c.Direct → x c = (.error (.io e), d) → d.rest = [] := by
  induction h with
  | pure a => intro c d e _ h; simp [pure_apply] at h
  | reject error => intro c d e _ h; simp [Decoder.reject, fail] at h
  | refuse length limit => intro c d e _ h; simp [fail] at h
  | bound => intro c d e _ h; simp [Decoder.bound] at h
  | isConsumed => intro c d e _ h; simp [Decoder.isConsumed] at h
  | peek =>
    intro c d e hc h
    cases hrest : c.rest with
    | nil =>
      obtain ⟨e', he'⟩ := peek_of_nil hrest
      obtain rfl : c = d := congrArg Prod.snd (he'.symm.trans h)
      exact hrest
    | cons b bs => simp [peek_of_rest hc.steady hrest] at h
  | consume =>
    intro c d e hc h
    cases hrest : c.rest with
    | nil =>
      obtain ⟨e', he'⟩ := consume_of_nil hrest
      obtain rfl : c = d := congrArg Prod.snd (he'.symm.trans h)
      exact hrest
    | cons b bs => simp [consume_of_rest hc.steady hrest] at h
  | skip n =>
    intro c d e hc h
    by_cases hn : n ≤ c.rest.length
    · simp [skip_of_le hc.steady hn] at h
    · obtain ⟨e', he'⟩ := skip_short hc.steady (Nat.not_le.1 hn)
      obtain rfl : c.advance c.rest.length = d := congrArg Prod.snd (he'.symm.trans h)
      simp
  | take htakes n => exact htakes.elim
  | request => intro c d e hc h; simp [request_of_unlimited hc.writeLimit_eq] at h
  | @bind _ _ x f hx _ ihx ihf =>
    intro c d e hc h
    rcases hrun : x c with ⟨g | a, d'⟩
    · rw [bind_of_error hrun] at h
      obtain ⟨rfl, rfl⟩ : g = .io e ∧ d' = d := by simpa using h
      exact ihx hc hrun
    · rw [bind_of_ok hrun] at h
      have hd' : c.Leads asks d' := by simpa [hrun] using hx.leads hc.steady
      exact ihf a (hc.of_leads hd') h
  | @attempt _ x _ ih =>
    intro c d e hc h
    unfold Decoder.attempt at h
    rcases hrun : x c with ⟨g | a, d'⟩ <;> rw [hrun] at h
    · cases g with
      | rejected error => simp at h
      | literalTooLarge length limit => simp at h
      | io e' =>
        obtain ⟨rfl, rfl⟩ : e' = e ∧ d' = d := by simpa using h
        exact ih hc hrun
    · simp at h

/-! ### Three sources -/

/-- What runs have in common: the first on octets in memory, the second on octets that are handed
out one at a time, the third on a stream. -/
structure Coincide (m o s : Except Failure α × Cursor) : Prop where
  octets_answer : SameAnswer m.1 o.1
  stream_answer : SameAnswer m.1 s.1
  stream_position : s.2.position = o.2.position
  octets_requests : o.2.requests = m.2.requests
  /-- The client was told to go on as often as the others were asked for data. -/
  stream_written : s.2.written = (List.replicate m.2.requests.length goAhead).flatten

/-- Runs one after another, where the stream can be written to up to `limit`. -/
inductive InStep (limit : Option Nat) :
    List (Except Failure α × Cursor) → List (Except Failure α × Cursor) →
      List (Except Failure α × Cursor) → Prop
  | nil : InStep limit [] [] []
  | cons {m o s : Except Failure α × Cursor} {ms os ss : List (Except Failure α × Cursor)}
    (h : Coincide m o s) (hposition : o.2.position = m.2.position) (hnext : InStep limit ms os ss) :
    InStep limit (m :: ms) (o :: os) (s :: ss)
  /-- Octets in memory are left where more are taken than there are; the other positions are still
  the same, but no longer that one. -/
  | short {m o s : Except Failure α × Cursor} {ms os ss : List (Except Failure α × Cursor)}
    (h : Coincide m o s) (hshort : FellShort m) : InStep limit (m :: ms) (o :: os) (s :: ss)
  /-- The stream failed to be written to. -/
  | unwritten {m o s : Except Failure α × Cursor} {ms os ss : List (Except Failure α × Cursor)}
    (hlimit : limit ≠ none) (hs : s.1 = .error (.io .writerFailed)) :
    InStep limit (m :: ms) (o :: os) (s :: ss)

/-- The same position on the three sources. -/
structure Trio (limit : Option Nat) (m o s : Cursor) : Prop where
  memory : m.source = .memory
  octets : o.source = .octets
  stream : ∃ link, s.source = .stream link
  octets_mirrors : m.Mirrors o
  stream_mirrors : m.Mirrors s
  limit_eq : s.writeLimit = limit
  acknowledged : s.Acknowledged

/-- The other source is at the same position, or it failed to be written to, or octets are left in
memory. -/
theorem Agree.mirrors {takes : Prop} {r s : Except Failure α} {d e : Cursor}
    (h : Agree takes (r, d) (s, e)) (he : e.source ≠ .memory) :
    (SameAnswer r s ∧ e.requests = d.requests ∧
      (d.Mirrors e ∨ d.source = .memory ∧ FellShort (r, d))) ∨
    s = .error (.io .writerFailed) ∧ e.writeLimit ≠ none := by
  cases h with
  | same hanswer h => exact Or.inl ⟨hanswer, h.requests_eq, Or.inl h⟩
  | unwritten hlimit => exact Or.inr ⟨rfl, hlimit⟩
  | short _ h =>
    rename_i f g d e
    have he' : e.source ≠ .memory := by
      rintro hs
      exact he (by simp only [Cursor.drained, hs])
    refine Or.inl ⟨.io f g, ?_, ?_⟩
    · rw [Cursor.requests_drained, Cursor.requests_drained, h.requests_eq]
    · by_cases hleft : d.source = .memory ∧ d.rest ≠ []
      · have hd : d.drained = d := by simp only [Cursor.drained, hleft.1]
        rw [hd]
        exact Or.inr ⟨hleft.1, ⟨f, rfl⟩, hleft.2⟩
      · refine Or.inl (h.drained he' fun hs => ?_)
        exact Classical.byContradiction fun hne => hleft ⟨hs, hne⟩

namespace Trio

variable {limit : Option Nat} {m o s : Cursor} {x : Decoder α}

/-- A run that starts at the same position on the three sources ends at the same position on them,
but for the two ways out. -/
theorem run (h : Trio limit m o s) (hx : Composed True True x) :
    (Coincide (x m) (x o) (x s) ∧
      (Trio limit (x m).2 (x o).2 (x s).2 ∨ FellShort (x m))) ∨
    (x s).1 = .error (.io .writerFailed) ∧ limit ≠ none := by
  obtain ⟨link, hlink⟩ := h.stream
  have hdirect : o.Direct := by simp [Cursor.Direct, h.octets]
  have hmleads := hx.leads h.octets_mirrors.direct.steady
  have holeads := hx.leads h.octets_mirrors.steady
  have hsleads := hx.leads h.stream_mirrors.steady
  have hmsource := (hmleads.source_eq h.octets_mirrors.direct).trans h.memory
  have hosource := (holeads.source_eq hdirect).trans h.octets
  obtain ⟨bs, hssource⟩ := hsleads.exists_stream hlink
  have hlimit := hsleads.writeLimit_eq.trans h.limit_eq
  have hacknowledged := hsleads.acknowledged hlink h.acknowledged
  -- Memory against either of the others, and the others against each other.
  rcases (hx.agree h.stream_mirrors).mirrors (by simp [hssource]) with
    ⟨hms, hrequests, hstream⟩ | ⟨hs, hne⟩
  · rcases (hx.agree h.octets_mirrors).mirrors (by simp [hosource]) with
      ⟨hmo, horequests, hoctets⟩ | ⟨-, hne⟩
    · rcases (hx.agree (h.octets_mirrors.other h.stream_mirrors hdirect)).mirrors
        (by simp [hssource]) with ⟨-, -, hos⟩ | ⟨hs, hne⟩
      · have hposition : (x s).2.position = (x o).2.position := by
          rcases hos with hos | ⟨hos, -⟩
          · exact hos.position_eq
          · simp [hosource] at hos
        refine Or.inl ⟨⟨hmo, hms, hposition, horequests, ?_⟩, ?_⟩
        · rw [hacknowledged, hrequests]
        · rcases hstream with hstream | ⟨-, hshort⟩
          · rcases hoctets with hoctets | ⟨-, hshort⟩
            · exact Or.inl ⟨hmsource, hosource, ⟨_, hssource⟩, hoctets, hstream, hlimit,
                hacknowledged⟩
            · exact Or.inr hshort
          · exact Or.inr hshort
      · exact Or.inr ⟨hs, hlimit ▸ hne⟩
    · exact absurd (hdirect.of_leads holeads).writeLimit_eq hne
  · exact Or.inr ⟨hs, hlimit ▸ hne⟩

end Trio

/-- Programs one after another, whatever the answers are. -/
def runs : List (Decoder α) → Cursor → List (Except Failure α × Cursor)
  | [], _ => []
  | x :: xs, c => x c :: runs xs (x c).2

/-- By induction on the programs: the next one starts at the same position. -/
theorem runs_inStep {limit : Option Nat} (xs : List (Decoder α)) : ∀ {m o s : Cursor},
    Trio limit m o s → (∀ x ∈ xs, Composed True True x) →
    InStep limit (runs xs m) (runs xs o) (runs xs s) := by
  induction xs with
  | nil => exact fun _ _ => .nil
  | cons x xs ih =>
    intro m o s h hxs
    rcases h.run (hxs x List.mem_cons_self) with ⟨hx, hnext | hshort⟩ | ⟨hs, hlimit⟩
    · exact .cons hx hnext.octets_mirrors.position_eq
        (ih hnext fun y hy => hxs y (List.mem_cons_of_mem _ hy))
    · exact .short hx hshort
    · exact .unwritten hlimit hs

end Decoder

/-! ### Operations -/

/-- The operations of a cursor. -/
inductive Operation where
  | peek
  | skipBlanks
  | consume
  | isConsumed
  | listContinues
  | request
  | eol (leniency : Leniency)
  | sp
  | discardLine
  | expect (octet : UInt8)
  | skip (count : Nat)
  | take (count : Nat)
  deriving DecidableEq, Repr

namespace Operation

/-- The answer to an operation. -/
inductive Answer where
  | done
  | truth (b : Bool)
  | octet (b : UInt8)
  | octets (bs : List UInt8)
  deriving DecidableEq, Repr

/-- An operation and its answer. -/
def run : Operation → Decoder Answer
  | peek => return .octet (← Decoder.peek)
  | skipBlanks => return .octet (← Decoder.skipBlanks)
  | consume => return .octet (← Decoder.consume)
  | isConsumed => return .truth (← Decoder.isConsumed)
  | listContinues => return .truth (← Decoder.listContinues)
  | request => do
    Decoder.request
    return .done
  | eol leniency => do
    Decoder.eol leniency
    return .done
  | sp => do
    Decoder.sp
    return .done
  | discardLine => do
    Decoder.discardLine
    return .done
  | expect octet => do
    Decoder.expect octet
    return .done
  | skip count => do
    Decoder.skip count
    return .done
  | take count => return .octets (← Decoder.take count)

theorem skipBlanks_composed {asks takes : Prop} : Composed asks takes Decoder.skipBlanks := by
  have hupTo (limit : Nat) : Composed asks takes (Decoder.skipBlanksUpTo limit) := by
    induction limit with
    | zero => exact .peek
    | succ limit ih =>
      exact Composed.peek.bind fun _ => .ite (Composed.consume.bind fun _ => ih) (.pure _)
  exact Composed.bound.bind fun _ => hupTo _

/-- Every operation but one is a program that takes no octets at once. -/
theorem run_composed {takes : Prop} (op : Operation) (h : ∀ n, op = take n → takes) :
    Composed True takes op.run := by
  cases op with
  | peek => exact Composed.peek.bind fun _ => .pure _
  | skipBlanks => exact skipBlanks_composed.bind fun _ => .pure _
  | consume => exact Composed.consume.bind fun _ => .pure _
  | isConsumed => exact Composed.isConsumed.bind fun _ => .pure _
  | listContinues =>
    exact (Composed.peek.bind fun _ => .ite (Composed.consume.bind fun _ => .pure _) <|
      .ite (Composed.consume.bind fun _ => .pure _) (.reject _)).bind fun _ => .pure _
  | request => exact (Composed.request trivial).bind fun _ => .pure _
  | eol leniency => exact (Composed.eol leniency).bind fun _ => .pure _
  | sp =>
    exact (Composed.peek.bind fun _ => .ite (Composed.consume.bind fun _ => .pure _)
      (.reject _)).bind fun _ => .pure _
  | discardLine => exact Composed.discardLine.bind fun _ => .pure _
  | expect octet => exact (Composed.expect octet).bind fun _ => .pure _
  | skip count => exact (Composed.skip count).bind fun _ => .pure _
  | take count => exact (Composed.take (h count rfl) count).bind fun _ => .pure _

/-- Octets are left in memory by a take of more of them only. -/
theorem eq_take_of_fellShort {op : Operation} {c : Cursor} (hc : c.Direct)
    (h : FellShort (op.run c)) : ∃ n, op = take n := by
  obtain ⟨⟨e, he⟩, hrest⟩ := h
  refine Classical.byContradiction fun hne => hrest ?_
  have hop : Composed True False op.run := op.run_composed fun n hn => hne ⟨n, hn⟩
  exact hop.rest_of_io hc (Prod.ext he rfl)

end Operation

namespace Session

/-- The answers of a session, and the cursors after them. -/
def runs (ctx : Context) (c : Cursor) : List (Except Failure Request × Cursor) :=
  (steps ctx c).map fun step => (step.answer, step.cursor)

/-- By induction on the bound: the next request starts at the same position. -/
theorem stepsUpTo_inStep (ctx : Context) {limit : Option Nat} (n : Nat) : ∀ {m o s : Cursor},
    Trio limit m o s → InStep limit ((stepsUpTo ctx n m).map fun step => (step.answer, step.cursor))
      ((stepsUpTo ctx n o).map fun step => (step.answer, step.cursor))
      ((stepsUpTo ctx n s).map fun step => (step.answer, step.cursor)) := by
  induction n with
  | zero => exact fun _ => .nil
  | succ n ih =>
    intro m o s h
    have hrun := h.run (Request.decode_composed ctx)
    rcases hm : Request.decode ctx m with ⟨rm, m'⟩
    rcases ho : Request.decode ctx o with ⟨ro, o'⟩
    rcases hs : Request.decode ctx s with ⟨rs, s'⟩
    rw [hm, ho, hs] at hrun
    simp only [stepsUpTo, hm, ho, hs]
    rcases hrun with ⟨hx, hnext⟩ | ⟨hfailed, hlimit⟩
    · cases rm with
      | error f =>
        -- The session ends on every source.
        obtain ⟨g, rfl⟩ : ∃ g, ro = .error g := hx.octets_answer.exists_error
        obtain ⟨g', rfl⟩ : ∃ g', rs = .error g' := hx.stream_answer.exists_error
        rcases hnext with hnext | hshort
        · exact .cons hx hnext.octets_mirrors.position_eq .nil
        · exact .short hx hshort
      | ok request =>
        obtain rfl : ro = .ok request := hx.octets_answer.eq_of_ok
        obtain rfl : rs = .ok request := hx.stream_answer.eq_of_ok
        have hnext : Trio limit m' o' s' := hnext.resolve_right fun hshort => by
          obtain ⟨⟨e, he⟩, -⟩ := hshort
          simp at he
        have hconsumed : o'.isConsumed = m'.isConsumed ∧ s'.isConsumed = m'.isConsumed := by
          rw [Cursor.isConsumed_eq hnext.octets_mirrors.direct.steady,
            Cursor.isConsumed_eq hnext.octets_mirrors.steady,
            Cursor.isConsumed_eq hnext.stream_mirrors.steady, hnext.octets_mirrors.rest_eq,
            hnext.stream_mirrors.rest_eq]
          exact ⟨rfl, rfl⟩
        rw [hconsumed.1, hconsumed.2]
        dsimp only
        split
        · exact .cons hx hnext.octets_mirrors.position_eq .nil
        · exact .cons hx hnext.octets_mirrors.position_eq (ih hnext)
    · obtain rfl : rs = .error (.io .writerFailed) := hfailed
      cases rm <;> cases ro <;> dsimp only <;> (repeat' split) <;> exact .unwritten hlimit rfl

theorem runs_inStep (ctx : Context) {limit : Option Nat} {m o s : Cursor} (h : Trio limit m o s) :
    InStep limit (runs ctx m) (runs ctx o) (runs ctx s) := by
  simp only [runs, steps, h.octets_mirrors.rest_eq, h.stream_mirrors.rest_eq]
  exact stepsUpTo_inStep ctx _ h

/-- The three sources with the same octets. -/
theorem trio_of_octets (bs : List UInt8) {window : Nat} (hwindow : 0 < window) (reads : List Nat)
    (breaks : Bool) (limit : Option Nat) : Trio limit (.ofOctets bs) (.ofSingleOctets bs)
      (.ofWindows bs window reads breaks limit) where
  memory := rfl
  octets := rfl
  stream := ⟨_, rfl⟩
  octets_mirrors := ⟨by simp [Cursor.Direct, Cursor.ofOctets],
    by simp [Cursor.Steady, Cursor.ofSingleOctets], rfl, rfl, rfl⟩
  stream_mirrors := by
    refine ⟨by simp [Cursor.Direct, Cursor.ofOctets], ?_, rfl, rfl, rfl⟩
    intro link hlink
    simp only [Cursor.ofWindows, Source.stream.injEq] at hlink
    rw [← hlink]
    exact hwindow
  limit_eq := rfl
  acknowledged := rfl

/-- **Sources.**  Octets in memory, the same octets handed out one at a time, and a stream that
shows them in windows of any size, reads of any lengths, and then ends or breaks, are in step on
every sequence of operations, on every sequence of programs of operations and on every session: up
to and with the first take of more octets than there are, and as long as the stream can be written
to. -/
theorem sources_inStep (bs : List UInt8) {window : Nat} (hwindow : 0 < window) (reads : List Nat)
    (breaks : Bool) (limit : Option Nat) :
    (∀ ops : List Operation,
      InStep limit (Decoder.runs (ops.map Operation.run) (.ofOctets bs))
        (Decoder.runs (ops.map Operation.run) (.ofSingleOctets bs))
        (Decoder.runs (ops.map Operation.run) (.ofWindows bs window reads breaks limit))) ∧
    (∀ (op : Operation) (c : Cursor), c.source = .memory → FellShort (op.run c) →
      ∃ n, op = .take n) ∧
    (∀ {α : Type} (xs : List (Decoder α)), (∀ x ∈ xs, Composed True True x) →
      InStep limit (Decoder.runs xs (.ofOctets bs)) (Decoder.runs xs (.ofSingleOctets bs))
        (Decoder.runs xs (.ofWindows bs window reads breaks limit))) ∧
    ∀ ctx : Context,
      InStep limit (runs ctx (.ofOctets bs)) (runs ctx (.ofSingleOctets bs))
        (runs ctx (.ofWindows bs window reads breaks limit)) := by
  have h := trio_of_octets bs hwindow reads breaks limit
  refine ⟨fun ops => ?_, fun op c hc hshort => ?_, fun xs hxs => ?_, fun ctx => runs_inStep ctx h⟩
  · refine Decoder.runs_inStep _ h fun x hx => ?_
    obtain ⟨op, -, rfl⟩ := List.mem_map.1 hx
    exact op.run_composed fun _ _ => trivial
  · exact Operation.eq_take_of_fellShort (by simp [Cursor.Direct, hc]) hshort
  · exact Decoder.runs_inStep xs h hxs

/-- Where nine octets are taken and two are left, octets in memory are left and a stream, which had
one of them in its first read and the other in its second, is at its end. -/
theorem sources_inStep_take :
    InStep none
      (Decoder.runs ([.take 1, .take 9].map Operation.run) (.ofOctets (Octet.ofText "abc")))
        (Decoder.runs ([.take 1, .take 9].map Operation.run) (.ofSingleOctets (Octet.ofText "abc")))
        (Decoder.runs ([.take 1, .take 9].map Operation.run)
          (.ofWindows (Octet.ofText "abc") 8 [2] true none)) ∧
      (Decoder.runs ([.take 1, .take 9].map Operation.run) (.ofOctets (Octet.ofText "abc"))).map
        (fun r => r.2.position) = [1, 1] ∧
      (Decoder.runs ([.take 1, .take 9].map Operation.run)
        (.ofWindows (Octet.ofText "abc") 8 [2] true none)).map (fun r => r.2.position) =
          [1, 3] := by
  refine ⟨?_, by cbv, by cbv⟩
  exact (sources_inStep (Octet.ofText "abc") (by decide) [2] true none).1 [.take 1, .take 9]

end Session

end ImapRequest
