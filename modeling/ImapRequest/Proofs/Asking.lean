import ImapRequest.Proofs.Lines
import ImapRequest.Proofs.Passage

/-!
# Asking for the data of literals

The client is asked for data right behind the line break of an announcement that waits to be asked,
and what is read next are the octets that were announced.  Whether it is asked is decided by what it
has sent until then, so it never waits for the server while the server waits for it.  Nothing else
asks; and a line that ends in an announcement, if it is answered without asking, is read as far as
its line feed.

* `Decoder.AsksDuly` : a run asks only in this way;
* `Decoder.Inline.asksDuly` : inline decoders do;
* `Decoder.StaysOn` : a run stays on the line, or asks;
* `Request.decode_asksDuly` : requests.
-/

namespace ImapRequest

namespace Decoder

variable {α β : Type} {limit : Nat} {leniency : Leniency}

/-- Asks for the data of a literal of `n` octets, takes it and goes on with it as `k`. -/
def askFor (n : Nat) (k : List UInt8 → Decoder α) : Decoder α := do
  request
  let data ← take n
  k data

/-- The data of a literal, none of which is NUL. -/
def checkedData (data : List UInt8) : Decoder (List UInt8) :=
  match data.findIdx? fun b => !Octet.isChar8 b with
  | some i => reject (.nulInLiteral i)
  | none => return data

theorem checkedData_composed {asks takes : Prop} (data : List UInt8) :
    Composed asks takes (checkedData data) := by
  unfold checkedData
  split
  · exact .reject _
  · exact .pure _

/-- Behind the octets `w`, which end in the announcement of `n` octets that waits to be asked, the
run asks for them, takes them and goes on. -/
structure Asks (limit : Nat) (leniency : Leniency) (x : Decoder α) (c : Cursor) (w : List UInt8)
    (n : Nat) (d : Cursor) : Prop where
  announced : ∃ front ending, w = front ++ ending ∧ Announces limit leniency .onRequest n ending
  goesOn : ∃ k, (∀ data, Composed True True (k data)) ∧ GoesOn x c w (askFor n k) d

/-- Wherever the run asks, it has read an announcement. -/
def AsksDuly (limit : Nat) (leniency : Leniency) (x : Decoder α) (c : Cursor) : Prop :=
  ∀ before p after, (x c).2.requests = c.requests ++ (before ++ p :: after) →
    ∃ w n d, Asks limit leniency x c w n d ∧ d.position = p ∧ d.requests = c.requests ++ before

theorem askFor_bind (n : Nat) (k : List UInt8 → Decoder α) (f : α → Decoder β) :
    askFor n k >>= f = askFor n fun data => k data >>= f := by
  simp only [askFor, bind_assoc]

/-- What can only fail for its source is not affected by turning rejections into answers. -/
theorem attempt_bind {x : Decoder α} (f : α → Decoder β)
    (hx : ∀ c g d, x c = (.error g, d) → g.isFatal = true) :
    attempt (x >>= f) = (do let a ← x; attempt (f a)) := by
  funext c
  rw [attempt, bind_apply, bind_apply]
  rcases h : x c with ⟨g | a, d⟩
  · have hfatal := hx c g d h
    cases g with
    | rejected error => simp [Failure.isFatal] at hfatal
    | io error => rfl
    | literalTooLarge length limit => rfl
  · rfl

theorem attempt_askFor (n : Nat) (k : List UInt8 → Decoder α) :
    attempt (askFor n k) = askFor n fun data => attempt (k data) := by
  have hio {γ : Type} (r : Except IoError γ × Cursor) (g : Failure) (d : Cursor)
      (h : ofIo r = (.error g, d)) : g.isFatal = true := by
    rcases r with ⟨e | a, c⟩
    · obtain ⟨rfl, -⟩ : .io e = g ∧ c = d := by simpa [ofIo, Except.mapError] using h
      rfl
    · simp [ofIo, Except.mapError] at h
  have hrequest := attempt_bind (x := request) (fun _ => take n >>= k)
    fun c g d h => hio c.request g d h
  have htake := attempt_bind (x := take n) k fun c g d h => hio (c.take n) g d h
  rw [htake] at hrequest
  exact hrequest

theorem attempt_snd (x : Decoder α) (c : Cursor) : (attempt x c).2 = (x c).2 := by
  rw [attempt]
  rcases x c with ⟨g | a, d⟩
  · cases g <;> rfl
  · rfl

namespace Asks

variable {x : Decoder α} {f : α → Decoder β} {c d e : Cursor} {a : α} {v w : List UInt8} {n : Nat}

theorem bind (h : Asks limit leniency x c w n d) (hf : ∀ a, Composed True True (f a)) :
    Asks limit leniency (x >>= f) c w n d where
  announced := h.announced
  goesOn := by
    obtain ⟨k, hk, hgoes⟩ := h.goesOn
    exact ⟨fun data => k data >>= f, fun data => (hk data).bind hf,
      askFor_bind n k f ▸ hgoes.bind f⟩

theorem after (hx : LocalAt x c) (hv : c.Reaches v d) (hrun : x c = (.ok a, d))
    (h : Asks limit leniency (f a) d w n e) : Asks limit leniency (x >>= f) c (v ++ w) n e where
  announced := by
    obtain ⟨front, ending, rfl, hending⟩ := h.announced
    exact ⟨v ++ front, ending, (List.append_assoc _ _ _).symm, hending⟩
  goesOn := by
    obtain ⟨k, hk, hgoes⟩ := h.goesOn
    obtain ⟨front, ending, rfl, hending⟩ := h.announced
    exact ⟨k, hk, hgoes.after hx hv hrun (by simp [hending.ne_nil])⟩

theorem congr {y : Decoder α} (hc : c.Steady) (hxy : ∀ d : Cursor, d.Steady → x d = y d)
    (h : Asks limit leniency y c w n d) : Asks limit leniency x c w n d where
  announced := h.announced
  goesOn := by
    obtain ⟨k, hk, hgoes⟩ := h.goesOn
    exact ⟨k, hk, hgoes.congr hc hxy⟩

theorem attempt (h : Asks limit leniency x c w n d) : Asks limit leniency (attempt x) c w n d where
  announced := h.announced
  goesOn := by
    obtain ⟨k, hk, hgoes⟩ := h.goesOn
    exact ⟨_, fun data => (hk data).attempt, attempt_askFor n k ▸ hgoes.attempt⟩

end Asks

namespace AsksDuly

variable {x y : Decoder α} {f : α → Decoder β} {c d e : Cursor}

theorem of_requests_eq (h : (x c).2.requests = c.requests) : AsksDuly limit leniency x c := by
  intro before p after hasks
  rw [h] at hasks
  simpa using congrArg List.length hasks

/-- What can not ask asks duly. -/
theorem of_composed (hc : c.Steady) (h : Composed False True x) : AsksDuly limit leniency x c :=
  of_requests_eq (h.requests_eq hc)

theorem congr (hc : c.Steady) (h : ∀ d : Cursor, d.Steady → x d = y d)
    (hy : AsksDuly limit leniency y c) : AsksDuly limit leniency x c := by
  intro before p after hasks
  rw [h c hc] at hasks
  obtain ⟨w, n, d, hd, hposition, hrequests⟩ := hy before p after hasks
  exact ⟨w, n, d, hd.congr hc h, hposition, hrequests⟩

theorem attempt (h : AsksDuly limit leniency x c) : AsksDuly limit leniency (attempt x) c := by
  intro before p after hasks
  rw [attempt_snd] at hasks
  obtain ⟨w, n, d, hd, hposition, hrequests⟩ := h before p after hasks
  exact ⟨w, n, d, hd.attempt, hposition, hrequests⟩

/-- The requests of a sequence are those of the first part, and then those of the second. -/
theorem bind (hc : c.Steady) (hx : AsksDuly limit leniency x c) (hlocal : LocalAt x c)
    (hxc : Composed True True x) (hfc : ∀ a, Composed True True (f a))
    (hf : ∀ a d, x c = (.ok a, d) → AsksDuly limit leniency (f a) d) :
    AsksDuly limit leniency (x >>= f) c := by
  intro before p after hasks
  have hfirst : ∀ after', (x c).2.requests = c.requests ++ (before ++ p :: after') →
      ∃ w n d, Asks limit leniency (x >>= f) c w n d ∧ d.position = p ∧
        d.requests = c.requests ++ before := by
    intro after' h
    obtain ⟨w, n, d, hd, hposition, hrequests⟩ := hx before p after' h
    exact ⟨w, n, d, hd.bind hfc, hposition, hrequests⟩
  have hleads := hxc.leads hc
  rcases hrun : x c with ⟨g | a, d⟩ <;> rw [hrun] at hleads hfirst
  · rw [bind_of_error hrun] at hasks
    exact hfirst after hasks
  · rw [bind_of_ok hrun] at hasks
    obtain ⟨ps, hps, -⟩ := hleads.exists_requests
    obtain ⟨qs, hqs, -⟩ := ((hfc a).leads (hleads.steady hc)).exists_requests
    have hsplit : ps ++ qs = before ++ p :: after := by
      have h := hqs.symm.trans hasks
      rw [hps, List.append_assoc] at h
      exact List.append_cancel_left h
    obtain ⟨v, hv⟩ := hleads.reaches
    have hsecond : ∀ before', before = ps ++ before' → qs = before' ++ p :: after →
        ∃ w n d, Asks limit leniency (x >>= f) c w n d ∧ d.position = p ∧
          d.requests = c.requests ++ before := by
      intro before' hbefore h
      obtain ⟨w, n, e, he, hposition, hrequests⟩ := hf a d hrun before' p after (h ▸ hqs)
      refine ⟨v ++ w, n, e, he.after hlocal hv hrun, hposition, ?_⟩
      rw [hrequests, hps, hbefore, List.append_assoc]
    rcases List.append_eq_append_iff.1 hsplit with ⟨before', hbefore, h⟩ | ⟨ps', hps', h⟩
    · exact hsecond before' hbefore h
    · cases ps' with
      | nil => exact hsecond [] (by simpa using hps'.symm) (by simpa using h.symm)
      | cons q ps' =>
        obtain ⟨rfl, -⟩ : p = q ∧ after = ps' ++ qs := by simpa using h
        exact hfirst ps' (by rw [hps, hps'])

/-- By induction on the octets that are left: the announcement of an element consumes some. -/
theorem many {more : Decoder Bool} {element : Decoder α} (hadvances : Advances more)
    (hmore : Composed True True more) (helement : Composed True True element)
    (hml : ∀ c : Cursor, c.Steady → LocalAt more c)
    (hel : ∀ c : Cursor, c.Steady → LocalAt element c)
    (hm : ∀ c : Cursor, c.Steady → AsksDuly limit leniency more c)
    (he : ∀ c : Cursor, c.Steady → AsksDuly limit leniency element c) (n : Nat) : ∀ {c : Cursor},
    c.Steady → c.rest.length < n → AsksDuly limit leniency (many more element) c := by
  have hmany : Composed True True (Decoder.many more element) := hmore.many helement
  induction n with
  | zero => intro c _ hn; exact absurd hn (Nat.not_lt_zero _)
  | succ n ih =>
    intro c hc hn
    refine congr hc (fun c hc => many_apply hadvances hmore.forward helement.forward hc) ?_
    refine bind hc (hm c hc) (hml c hc) hmore (fun _ => .ite
      (helement.bind fun _ => hmany.bind fun _ => .pure _) (.pure _)) fun t d hd => ?_
    have hd' : d.Steady := hmore.forward.steady_of_run hc hd
    cases t with
    | false => exact of_composed hd' (.pure _)
    | true =>
      have hlt : d.rest.length < c.rest.length := hadvances c d hc hd
      refine bind hd' (he d hd') (hel d hd') helement
        (fun _ => hmany.bind fun _ => .pure _) fun a e hrun => ?_
      have he' : e.Steady := helement.forward.steady_of_run hd' hrun
      have hle : e.rest.length ≤ d.rest.length := helement.forward.length_le_of_run hd' hrun
      exact bind he' (ih he' (by omega))
        (.many hadvances hmore.forward helement.forward hml hel _ he' (Nat.lt_succ_self _)) hmany
        (fun _ => .pure _) fun _ d hrun =>
          of_composed (hmany.forward.steady_of_run he' hrun) (.pure _)

/-- A literal that waits to be asked for is asked for. -/
theorem literalOctets (ctx : Context) (hc : c.Steady) :
    AsksDuly ctx.maxLiteral ctx.leniency (literalOctets ctx) c := by
  have hsilent : (Decoder.announcement ctx c).2.requests = c.requests :=
    (Composed.announcement ctx).requests_eq hc
  rw [literalOctets_eq]
  rcases hrun : Decoder.announcement ctx c with ⟨g | ⟨n, mode⟩, d⟩ <;> rw [hrun] at hsilent
  · exact of_requests_eq (by rw [bind_of_error hrun]; exact hsilent)
  have hd : d.Steady := (Forward.announcement ctx).steady_of_run hc hrun
  have hdata (e : Cursor) (he : e.Steady) : (Decoder.literalData n e).2.requests = e.requests :=
    (Composed.literalData trivial n).requests_eq he
  cases mode with
  | atOnce =>
    refine of_requests_eq ?_
    rw [bind_of_ok hrun]
    exact (hdata d hd).trans hsilent
  | onRequest =>
    rcases request_eq d with hask | hask
    · intro before p after hasks
      -- The one request is at the position behind the line break.
      rw [bind_of_ok hrun] at hasks
      change ((Decoder.request >>= fun _ => Decoder.literalData n) d).2.requests = _ at hasks
      rw [bind_of_ok hask, hdata _ hd.asked, Cursor.requests_asked, hsilent] at hasks
      have hone := List.append_cancel_left hasks
      obtain ⟨rfl, rfl, rfl⟩ : before = [] ∧ p = d.position ∧ after = [] := by
        cases before with
        | nil => simpa [eq_comm] using hone
        | cons q before => simp at hone
      obtain ⟨w, hw, hreaches, rfl⟩ := announces_of_announcement ctx hc hrun
      refine ⟨w, n, _, ⟨⟨[], w, rfl, hw⟩, checkedData, checkedData_composed, hreaches,
        fun s => ?_⟩, rfl, by rw [List.append_nil]; exact hsilent⟩
      have hagain := announcement_of_announces (s := s) (hc.withRest (w ++ s)) hw rfl
      rw [Cursor.withRest_append_advance] at hagain
      exact bind_of_ok hagain
    · refine of_requests_eq ?_
      rw [bind_of_ok hrun]
      change ((Decoder.request >>= fun _ => Decoder.literalData n) d).2.requests = _
      rw [bind_of_error hask, hsilent]

end AsksDuly

/-- By induction on how the decoder is put together. -/
theorem Inline.asksDuly {x : Decoder α} (h : Inline limit leniency x) :
    ∀ {c : Cursor}, c.Steady → AsksDuly limit leniency x c := by
  induction h with
  | pure a => exact fun hc => .of_composed hc (.pure a)
  | reject e => exact fun hc => .of_composed hc (.reject e)
  | peek => exact fun hc => .of_composed hc .peek
  | isConsumed => exact fun hc => .of_composed hc .isConsumed
  | expect b => exact fun hc => .of_composed hc (.expect b)
  | takeWhile p => exact fun hc => .of_composed hc (.takeWhile p)
  | digits => exact fun hc => .of_composed hc .digits
  | quotedToken =>
    exact fun hc => .of_composed hc <| (Composed.expect _).bind fun _ =>
      (Composed.takeWhile _).bind fun _ => (Composed.expect _).bind fun _ => .pure _
  | quoted charset => exact fun hc => .of_composed hc (.quoted charset)
  | literalOctets ctx hlimit hleniency =>
    subst hlimit hleniency
    exact fun hc => .literalOctets ctx hc
  | bind hx hf ihx ihf =>
    exact fun hc => .bind hc (ihx hc) (hx.localAt hc) hx.composed (fun a => (hf a).composed)
      fun a d hrun => ihf a (hx.forward.steady_of_run hc hrun)
  | many hadvances hmore helement ihmore ihelement =>
    exact fun hc => .many hadvances hmore.composed helement.composed (fun _ => hmore.localAt)
      (fun _ => helement.localAt) (fun _ => ihmore) (fun _ => ihelement) _ hc (Nat.lt_succ_self _)

end Decoder

/-! ### Lines that are answered without asking -/

namespace Decoder

open Octet (IsWaitingLine)

variable {α β : Type}

/-- The run ends on the line, or it asks for data, or its source fails. -/
def StaysOn (x : Decoder α) (line : List UInt8) (c : Cursor) : Prop :=
  (∃ w t, line = w ++ t ∧ (x c).2 = c.advance w.length) ∨ (x c).2.requests ≠ c.requests ∨
    ∃ io, (x c).1 = .error (.io io)

theorem requests_ne_of_leads {c d e : Cursor} {asks : Prop} (hcd : c.Leads asks d)
    (hde : d.Leads asks e) (h : d.requests ≠ c.requests) : e.requests ≠ c.requests := by
  obtain ⟨ps, hps, -⟩ := hcd.exists_requests
  obtain ⟨qs, hqs, -⟩ := hde.exists_requests
  have hne : ps ≠ [] := by
    rintro rfl
    exact h (by rw [hps, List.append_nil])
  intro heq
  rw [hqs, hps, List.append_assoc] at heq
  have hnil : ps ++ qs = [] := by simpa using heq
  exact hne (List.append_eq_nil_iff.1 hnil).1

namespace StaysOn

variable {x y : Decoder α} {f : α → Decoder β} {c : Cursor} {line : List UInt8}

theorem of_contained (limit : Nat) (h : Contained limit x line) (hc : c.OnLine line) :
    StaysOn x line c := by
  obtain ⟨w, t, r, hline, -, -, hrun⟩ := h
  obtain ⟨more, hrest⟩ := hc.rest_eq
  exact Or.inl ⟨w, t, hline, by rw [hrun c more hc.steady hrest]⟩

theorem pure (a : α) (line : List UInt8) (c : Cursor) : StaysOn (pure a) line c :=
  Or.inl ⟨[], line, rfl, rfl⟩

theorem bind (hc : c.Steady) (hx : StaysOn x line c) (hxc : Composed True True x)
    (hfc : ∀ a, Composed True True (f a))
    (hf : ∀ a w t, line = w ++ t → x c = (.ok a, c.advance w.length) →
      StaysOn (f a) t (c.advance w.length)) : StaysOn (x >>= f) line c := by
  have hleads := hxc.leads hc
  rcases hrun : x c with ⟨g | a, d⟩
  · simpa only [StaysOn, bind_of_error hrun, hrun, Except.error.injEq] using hx
  · rw [hrun] at hleads
    simp only [StaysOn, bind_of_ok hrun]
    simp only [StaysOn, hrun] at hx
    rcases hx with ⟨w, t, hline, rfl⟩ | hasked | ⟨io, hio⟩
    · rcases hf a w t hline hrun with ⟨w', t', rfl, he⟩ | hasked | hio
      · exact Or.inl ⟨w ++ w', t', by rw [hline, List.append_assoc], by
          rw [he, Cursor.advance_advance, List.length_append]⟩
      · exact Or.inr (Or.inl hasked)
      · exact Or.inr (Or.inr hio)
    · have hnext := (hfc a).leads (hleads.steady hc)
      exact Or.inr (Or.inl (requests_ne_of_leads hleads hnext hasked))
    · simp at hio

/-- The announcement at the end of the line is asked for; any other is rejected within the line, or
refused. -/
theorem literalOctets (ctx : Context) (hline : IsWaitingLine line) (hc : c.OnLine line) :
    StaysOn (literalOctets ctx) line c := by
  by_cases hannounced : ∃ ds n tail, line = LiteralMode.onRequest.announced ds ++ tail ∧
      Decimal.IsNumber ds n ∧ n ≤ ctx.maxLiteral ∧ Octet.IsLineTail tail
  · obtain ⟨ds, n, tail, rfl, hds, hn, htail⟩ := hannounced
    obtain ⟨more, hrest⟩ := hc.rest_eq
    rw [List.append_assoc] at hrest
    have hannouncement := announcement_of_number ctx hc.steady hrest hds
    rw [if_neg (Nat.not_lt.2 hn)] at hannouncement
    have htail' : (c.advance (LiteralMode.onRequest.announced ds).length).OnLine tail := hc.advance
    rcases eol_line ctx.leniency hline.of_append.no_lf with heol | ⟨w, t, error, rfl, heol⟩
    · -- Behind the line break the data is asked for.
      rw [bind_of_ok (heol _ htail'), pure_apply] at hannouncement
      have hd := (Forward.announcement ctx).steady_of_run hc.steady hannouncement
      have hsilent : (Decoder.announcement ctx c).2.requests = c.requests :=
        (Composed.announcement ctx).requests_eq hc.steady
      rw [hannouncement] at hsilent
      rw [literalOctets_eq]
      simp only [StaysOn, bind_of_ok hannouncement]
      change _ ∨ ((Decoder.request >>= fun _ => Decoder.literalData n) _).2.requests ≠ _ ∨
        ∃ io, ((Decoder.request >>= fun _ => Decoder.literalData n) _).1 = _
      rcases request_eq ((c.advance (LiteralMode.onRequest.announced ds).length).advance
        (tail.length + 1)) with hask | hask
      · rw [bind_of_ok hask, (Composed.literalData trivial n).requests_eq hd.asked,
          Cursor.requests_asked, hsilent]
        exact Or.inr (Or.inl (by simp))
      · rw [bind_of_error hask]
        exact Or.inr (Or.inr ⟨_, rfl⟩)
    · rw [bind_of_error (heol _ htail')] at hannouncement
      refine Or.inl ⟨LiteralMode.onRequest.announced ds ++ w, t, by rw [List.append_assoc], ?_⟩
      rw [literalOctets_eq, bind_of_error hannouncement, Cursor.advance_advance, List.length_append]
  · refine of_contained ctx.maxLiteral (.announcement_bind_of_not rfl hline.no_lf ?_) hc
    intro mode ds n tail heq hds hn htail
    cases mode with
    | onRequest => exact hannounced ⟨ds, n, tail, heq, hds, hn, htail⟩
    | atOnce => exact hline.no_announcement [] ds n tail heq hds htail

/-- By induction on the octets that are left: the announcement of an element consumes some. -/
theorem many {more : Decoder Bool} {element : Decoder α} (hadvances : Advances more)
    (hmore : Composed True True more) (helement : Composed True True element)
    (hm : ∀ {line : List UInt8} {c : Cursor}, IsWaitingLine line → c.OnLine line →
      StaysOn more line c)
    (he : ∀ {line : List UInt8} {c : Cursor}, IsWaitingLine line → c.OnLine line →
      StaysOn element line c) (n : Nat) : ∀ {line : List UInt8} {c : Cursor},
    IsWaitingLine line → c.OnLine line → c.rest.length < n →
      StaysOn (many more element) line c := by
  have hmany : Composed True True (Decoder.many more element) := hmore.many helement
  induction n with
  | zero => intro line c _ _ hn; exact absurd hn (Nat.not_lt_zero _)
  | succ n ih =>
    intro line c hline hc hn
    rw [StaysOn, many_apply hadvances hmore.forward helement.forward hc.steady]
    refine bind hc.steady (hm hline hc) hmore (fun _ => .ite
      (helement.bind fun _ => hmany.bind fun _ => .pure _) (.pure _))
        fun t w line' hsplit hrun => ?_
    cases t with
    | false => exact pure _ _ _
    | true =>
      have hlt := hadvances c _ hc.steady hrun
      subst hsplit
      have hd : (c.advance w.length).OnLine line' := hc.advance
      refine bind hd.steady (he hline.of_append hd) helement
        (fun _ => hmany.bind fun _ => .pure _) fun a w' line'' hsplit _ => ?_
      subst hsplit
      have hle : ((c.advance w.length).advance w'.length).rest.length ≤
          (c.advance w.length).rest.length := by
        rw [Cursor.rest_advance, List.length_drop]
        omega
      exact bind (hd.steady.advance _)
        (ih hline.of_append.of_append hd.advance (by omega)) hmany (fun _ => .pure _)
        fun _ _ _ _ _ => pure _ _ _

end StaysOn

/-- By induction on how the decoder is put together. -/
theorem Inline.staysOn {limit : Nat} {leniency : Leniency} {x : Decoder α}
    (h : Inline limit leniency x) : ∀ {line : List UInt8} {c : Cursor}, IsWaitingLine line →
      c.OnLine line → StaysOn x line c := by
  -- All but literals stay on every line.
  induction h with
  | pure a => exact fun {line c} _ _ => .pure a line c
  | reject e => exact fun {line _} _ hc => .of_contained 0 (.reject e line) hc
  | peek =>
    intro line c _ hc
    rw [← bind_pure Decoder.peek]
    exact .of_contained 0 (.peek_bind fun b _ => .pure b line) hc
  | isConsumed => exact fun {line _} _ hc => .of_contained 0 (.isConsumed line) hc
  | expect b hb =>
    refine fun {line _} _ hc => .of_contained 0 (.expect ?_ line) hc
    rintro rfl
    exact absurd hb (by decide)
  | takeWhile p hp =>
    refine fun {line _} _ hc => .of_contained 0 (.takeWhile ?_ line) hc
    cases hlf : p Octet.lf with
    | false => rfl
    | true => exact absurd (hp _ hlf) (by decide)
  | digits => exact fun {line _} _ hc => .of_contained 0 (.digits line) hc
  | quotedToken => exact fun {line _} _ hc => .of_contained 0 (.quotedToken line) hc
  | quoted charset => exact fun hline hc => .of_contained 0 (.quoted charset hline.no_lf) hc
  | literalOctets ctx => exact fun hline hc => .literalOctets ctx hline hc
  | bind hx hf ihx ihf =>
    intro line c hline hc
    refine (ihx hline hc).bind hc.steady hx.composed (fun a => (hf a).composed)
      fun a w t hsplit _ => ?_
    subst hsplit
    exact ihf a hline.of_append hc.advance
  | many hadvances hmore helement ihmore ihelement =>
    exact fun hline hc => .many hadvances hmore.composed helement.composed ihmore ihelement _ hline
      hc (Nat.lt_succ_self _)

end Decoder

/-- The digits and the sign of an announcement can be read off it. -/
theorem LiteralMode.announced_inj {mode mode' : LiteralMode} {ds ds' s s' : List UInt8}
    (hds : ds.all Octet.isDigit = true) (hds' : ds'.all Octet.isDigit = true)
    (h : mode.announced ds ++ s = mode'.announced ds' ++ s') : mode = mode' ∧ ds = ds' := by
  -- The digits are the longest run of them behind the brace.
  have hrun : ∀ (mode : LiteralMode) (ds s : List UInt8), ds.all Octet.isDigit = true →
      ((mode.announced ds ++ s).tail.takeWhile Octet.isDigit) = ds := by
    intro mode ds s hds
    have hstop : ∀ b ∈ (mode.sign ++ [Octet.rbrace] ++ s).head?, Octet.isDigit b = false := by
      cases mode <;> rintro b ⟨⟩ <;> rfl
    rw [announced, List.cons_append, List.tail_cons, List.append_assoc]
    exact Decoder.takeWhile_run (List.all_eq_true.1 hds) hstop
  obtain rfl : ds = ds' := by rw [← hrun mode ds s hds, h, hrun mode' ds' s' hds']
  refine ⟨?_, rfl⟩
  cases mode <;> cases mode' <;> simp [announced, sign, Octet.plus, Octet.rbrace] at h ⊢

/-- A line that ends in an announcement that waits to be asked announces nothing else. -/
theorem Octet.IsWaitingLine.of_announced {front ds tail : List UInt8}
    (hds : ds.all isDigit = true) (htail : IsLineTail tail)
    (hlf : lf ∉ front ++ (LiteralMode.onRequest.announced ds ++ tail)) :
    IsWaitingLine (front ++ (LiteralMode.onRequest.announced ds ++ tail)) where
  no_lf := hlf
  no_announcement := by
    intro front' ds' n tail' heq hds' htail'
    -- Read backwards, one has a digit or the opening brace where the other has a plus sign.
    have hrev := congrArg List.reverse heq
    have hplus : ∀ u u', ds.reverse ++ lbrace :: u ≠ plus :: u' := by
      intro u u' h
      cases hrev : ds.reverse with
      | nil => simp [hrev, lbrace, plus] at h
      | cons d ds'' =>
        rw [hrev] at h
        have hmem : plus ∈ ds := by
          rw [← List.mem_reverse, hrev, (List.cons.inj h).1]
          exact List.mem_cons_self
        exact absurd (List.all_eq_true.1 hds _ hmem) (by decide)
    rcases htail with rfl | rfl <;> rcases htail' with rfl | rfl <;>
      simp [LiteralMode.announced, LiteralMode.sign, rbrace, cr] at hrev
    · exact hplus _ _ hrev
    · exact hplus _ _ hrev

namespace Request

open Decoder
open Octet (IsWaitingLine)

variable {ctx : Context} {c e : Cursor} {line : List UInt8} {request : Request}

/-- A request asks for data in no other way. -/
theorem decode_asksDuly (ctx : Context) (hc : c.Steady) :
    AsksDuly ctx.maxLiteral ctx.leniency (decode ctx) c := by
  have htag : Inline ctx.maxLiteral ctx.leniency Tag.decode := Tag.decode_inline
  refine .bind hc (htag.asksDuly hc).attempt (htag.localAt hc).attempt htag.composed.attempt
    (fun r => ?_) fun r d hd => ?_
  · cases r with
    | error e => exact discard_composed none e
    | ok tag => exact (decodeCommand_composed ctx tag).attempt.bind (answer_composed tag)
  have hsteady : d.Steady := htag.forward.attempt.steady_of_run hc hd
  cases r with
  | error e => exact .of_composed hsteady (discard_composed none e)
  | ok tag =>
    have hcommand : AsksDuly ctx.maxLiteral ctx.leniency (decodeCommand ctx tag) d := by
      rw [decodeCommand_eq]
      refine .bind hsteady ((decodeUnended_inline ctx tag).asksDuly hsteady)
        ((decodeUnended_inline ctx tag).localAt hsteady) (decodeUnended_inline ctx tag).composed
        (fun _ => (Composed.eol _).bind fun _ => .pure _) fun command d' hd' => ?_
      exact .of_composed ((decodeUnended_inline ctx tag).forward.steady_of_run hsteady hd')
        ((Composed.eol _).bind fun _ => .pure _)
    refine .bind hsteady hcommand.attempt (decodeCommand_localAt tag hsteady).attempt
      (decodeCommand_composed ctx tag).attempt (answer_composed tag) fun r d' hd' => ?_
    have hsteady' : d'.Steady := (decodeCommand_forward ctx tag).attempt.steady_of_run hsteady hd'
    cases r with
    | error e => exact .of_composed hsteady' (discard_composed (some tag) e)
    | ok command => exact .of_composed hsteady' (.pure _)

/-- What a request does to the cursor behind its command, before the line break is looked at. -/
theorem leads_of_parse (ctx : Context) (hc : c.Steady) :
    (parse ctx c).2.Leads True (decode ctx c).2 := by
  have hparse : (parse ctx c).2.Steady := (parse_inline ctx).forward.steady hc
  have hread : (parse ctx c).2.Leads True (read ctx c).2 := by
    rcases hrun : parse ctx c with ⟨f | command, d⟩ <;> rw [hrun] at hparse
    · rw [read, bind_of_error hrun]
      exact .refl
    · rw [read, bind_of_ok hrun]
      exact (show Composed True True _ from (Composed.eol ctx.leniency).bind fun _ =>
        .pure command).leads hparse
  refine hread.trans ?_
  rcases hrun : read ctx c with ⟨f | command, d⟩ <;> rw [hrun] at hread
  · cases f with
    | rejected error =>
      rw [decode_of_rejected hrun]
      exact (show Composed True True _ from Composed.discardLine.bind fun _ => .pure _).leads
        (hread.steady hparse)
    | io io => rw [decode_of_fatal hrun rfl]; exact .refl
    | literalTooLarge length limit => rw [decode_of_fatal hrun rfl]; exact .refl
  · rw [decode_of_ok hrun]
    exact .refl

/-- A line that waits to be asked is answered without asking only with the position behind its line
feed. -/
theorem eq_advance_of_not_asked (hline : IsWaitingLine line) (hc : c.OnLine line)
    (h : decode ctx c = (.ok request, e)) (hrequests : e.requests = c.requests) :
    e = c.advance (line.length + 1) := by
  -- Rejected on the line, a request is discarded with what is left of it.
  have hrejected : ∀ w t error, line = w ++ t →
      read ctx c = (.error (.rejected error), c.advance w.length) →
      e = c.advance (line.length + 1) := by
    rintro w t error rfl hread
    have hdiscard := discardLine_of_waiting hline.of_append hc.advance
    rw [decode_of_rejected hread, discard_of_ok hdiscard, Cursor.advance_advance] at h
    rw [List.length_append, Nat.add_assoc]
    exact (congrArg Prod.snd h).symm
  have hfatal : ∀ f d, read ctx c = (.error f, d) → f.isFatal = true →
      e = c.advance (line.length + 1) := by
    intro f d hread hf
    rw [decode_of_fatal hread hf] at h
    simp at h
  rcases (parse_inline ctx).staysOn hline hc with ⟨w, t, rfl, hd⟩ | hasked | ⟨io, hio⟩
  · rcases hrun : parse ctx c with ⟨f | command, d⟩ <;> rw [hrun] at hd
    · obtain rfl : d = c.advance w.length := hd
      have hread : read ctx c = (.error f, c.advance w.length) := bind_of_error hrun
      cases f with
      | rejected error => exact hrejected w t error rfl hread
      | io io => exact hfatal _ _ hread rfl
      | literalTooLarge length limit => exact hfatal _ _ hread rfl
    · obtain rfl : d = c.advance w.length := hd
      rcases eol_line ctx.leniency hline.of_append.no_lf with heol | ⟨w', t', error, rfl, heol⟩
      · have hread : read ctx c = (.ok command, c.advance (w.length + (t.length + 1))) := by
          rw [read, bind_of_ok hrun, bind_of_ok (heol _ hc.advance), Cursor.advance_advance]
          rfl
        rw [decode_of_ok hread] at h
        rw [List.length_append, Nat.add_assoc]
        exact (congrArg Prod.snd h).symm
      · refine hrejected (w ++ w') t' error (List.append_assoc w w' t').symm ?_
        rw [read, bind_of_ok hrun, bind_of_error (heol _ hc.advance), Cursor.advance_advance,
          List.length_append]
  · have hleads := leads_of_parse ctx hc.steady
    rw [h] at hleads
    exact absurd hrequests (requests_ne_of_leads ((parse_inline ctx).composed.leads hc.steady)
      hleads hasked)
  · rcases hrun : parse ctx c with ⟨f | command, d⟩ <;> rw [hrun] at hio
    · obtain rfl : f = .io io := by simpa using hio
      exact hfatal _ _ (bind_of_error hrun) rfl
    · simp at hio

/-- What follows a request for data that was made: it is made again in front of other octets, and
then the data is taken, if there is enough of it. -/
theorem askFor_withRest {α : Type} {n : Nat} {k : List UInt8 → Decoder α} {d : Cursor}
    (hd : d.Steady) (hask : Decoder.request d = (.ok (), d.asked)) (s : List UInt8) :
    (n ≤ s.length → askFor n k (d.withRest s) =
      k (s.take n) ((d.asked.advance n).withRest (s.drop n))) ∧
    (s.length < n → ∃ io i, askFor n k (d.withRest s) =
      (.error (.io io), (d.asked.withRest s).advance i)) := by
  have hagain : Decoder.request (d.withRest s) = (.ok (), d.asked.withRest s) := by
    rw [request_withRest, hask]
  have hsteady : (d.asked.withRest s).Steady := hd.asked.withRest s
  constructor
  · intro hn
    rw [askFor, bind_of_ok hagain, bind_of_ok (take_of_le hsteady hn)]
    rfl
  · intro hn
    obtain ⟨io, i, -, hrun⟩ := take_of_lt hsteady hn
    exact ⟨io, i, by rw [askFor, bind_of_ok hagain, bind_of_error hrun]⟩

/-- Announcements that are not within the limit, or do not wait, are not asked for. -/
theorem requests_of_literalOctets {d : Cursor} (hd : d.Steady) {mode : LiteralMode}
    {ds s : List UInt8} (hds : ds.all Octet.isDigit = true)
    (hrest : d.rest = mode.announced ds ++ s)
    (h : mode = .atOnce ∨ ctx.maxLiteral < Decimal.value ds) :
    (literalOctets ctx d).2.requests = d.requests := by
  have hsilent : (announcement ctx d).2.requests = d.requests :=
    (Composed.announcement ctx).requests_eq hd
  rw [literalOctets_eq]
  rcases hrun : announcement ctx d with ⟨f | ⟨n, mode'⟩, d'⟩ <;> rw [hrun] at hsilent
  · rw [bind_of_error hrun]
    exact hsilent
  · have hd' : d'.Steady := (Forward.announcement ctx).steady_of_run hd hrun
    rw [bind_of_ok hrun]
    cases mode' with
    | atOnce => exact ((Composed.literalData trivial n).requests_eq hd').trans hsilent
    | onRequest =>
      -- What was read as an announcement is the one that stands there.
      obtain ⟨w, hw, hreaches, -⟩ := announces_of_announcement ctx hd hrun
      obtain ⟨ds', brk, rfl, hds', -⟩ := hw.exists_eq
      have heq := hrest.symm.trans hreaches.rest_eq
      rw [List.append_assoc] at heq
      obtain ⟨rfl, rfl⟩ := LiteralMode.announced_inj hds hds'.all_isDigit heq
      rcases h with h | h
      · simp at h
      · rw [hds'.value_eq] at h
        exact absurd hw.le_limit (Nat.not_le.2 h)

/-- A request for data at the position `p`, made behind the requests `before`: behind the octets `w`
a run asks for `n` octets and goes on with them like `k`. -/
structure AskedFor (ctx : Context) (c : Cursor) (before : List Nat) (p : Nat) (w : List UInt8)
    (n : Nat) (d : Cursor) (k : List UInt8 → Decoder Request) : Prop where
  reaches : c.Reaches w d
  position_eq : d.position = p
  /-- The octets end in an announcement that waits to be asked, and its line break. -/
  announced : ∃ front ds brk, w = front ++ (LiteralMode.onRequest.announced ds ++ brk) ∧
    Decimal.IsNumber ds n ∧ ctx.leniency.IsBreak brk
  le_limit : n ≤ ctx.maxLiteral
  composed : ∀ data, Composed True True (k data)
  /-- In front of any octets `s` the run comes to the same request. -/
  run_eq : ∀ s, decode ctx (c.withRest (w ++ s)) = askFor n k (d.withRest s)
  /-- It is made there, and the next one is not made before the data has been taken. -/
  asks : ∀ s, ∃ later, (decode ctx (c.withRest (w ++ s))).2.requests =
    c.requests ++ (before ++ p :: later) ∧ ∀ q ∈ later, p + n ≤ q
  takes : ∀ s, n ≤ s.length → decode ctx (c.withRest (w ++ s)) =
    k (s.take n) ((d.asked.advance n).withRest (s.drop n))
  fails : ∀ s, s.length < n → ∃ io, (decode ctx (c.withRest (w ++ s))).1 = .error (.io io)

/-- When the client is asked for data, and when it is not. -/
structure AsksInTurn (ctx : Context) (c : Cursor) : Prop where
  asked : ∀ before p after, (decode ctx c).2.requests = c.requests ++ (before ++ p :: after) →
    ∃ w n d k, AskedFor ctx c before p w n d k
  /-- Discarding never asks. -/
  discarding : (discardLine c).2.requests = c.requests
  /-- Neither does an announcement that does not wait, or one beyond the limit. -/
  silent : ∀ mode ds s, ds.all Octet.isDigit = true → c.rest = LiteralMode.announced mode ds ++ s →
    mode = .atOnce ∨ ctx.maxLiteral < Decimal.value ds →
      (literalOctets ctx c).2.requests = c.requests
  /-- A line that ends in an announcement, and is answered without asking for its data, ends with
  its line feed. -/
  unasked : ∀ front ds tail more request e, Octet.IsLineTail tail → ds.all Octet.isDigit = true →
    Octet.lf ∉ front ++ (LiteralMode.onRequest.announced ds ++ tail) →
    c.rest = front ++ (LiteralMode.onRequest.announced ds ++ tail) ++ Octet.lf :: more →
    decode ctx c = (.ok request, e) → e.requests = c.requests →
      e = c.advance ((front ++ (LiteralMode.onRequest.announced ds ++ tail)).length + 1)

theorem askedFor_of_asks {before : List Nat} {p n : Nat} {w : List UInt8} {d : Cursor}
    (hc : c.Steady) (hd : Asks ctx.maxLiteral ctx.leniency (decode ctx) c w n d)
    (hposition : d.position = p) (hrequests : d.requests = c.requests ++ before)
    {after : List Nat} (hasks : (decode ctx c).2.requests = c.requests ++ (before ++ p :: after)) :
    ∃ k, AskedFor ctx c before p w n d k := by
  obtain ⟨front, ending, rfl, hending⟩ := hd.announced
  obtain ⟨ds, brk, rfl, hds, hbrk⟩ := hending.exists_eq
  obtain ⟨k, hk, hgoes⟩ := hd.goesOn
  have hsteady : d.Steady := hgoes.reaches.steady hc
  -- The request was made, since there is one more than before it.
  have hask : Decoder.request d = (.ok (), d.asked) := by
    refine (request_eq d).resolve_right fun hfailed => ?_
    have hrun := hgoes.run_eq d.rest
    rw [← hgoes.reaches.rest_eq, Cursor.withRest_rest, Cursor.withRest_rest, askFor,
      bind_of_error hfailed] at hrun
    rw [hrun, hrequests] at hasks
    simpa using congrArg List.length hasks
  refine ⟨k, hgoes.reaches, hposition, ⟨front, ds, brk, rfl, hds, hbrk⟩, hending.le_limit, hk,
    hgoes.run_eq, fun s => ?_, fun s hn => ?_, fun s hn => ?_⟩
  · by_cases hn : n ≤ s.length
    · have hbehind : ((d.asked.advance n).withRest (s.drop n)).Steady :=
        (hsteady.asked.advance n).withRest _
      obtain ⟨later, hlater, hle⟩ := ((hk (s.take n)).leads hbehind).exists_requests
      rw [hgoes.run_eq s, (askFor_withRest hsteady hask s).1 hn]
      refine ⟨later, hlater.trans ?_, fun q hq => hposition ▸ hle q hq⟩
      change d.requests ++ [d.position] ++ later = _
      rw [hrequests, hposition]
      simp
    · obtain ⟨io, i, hio⟩ := (askFor_withRest (k := k) hsteady hask s).2 (Nat.not_le.1 hn)
      rw [hgoes.run_eq s, hio]
      refine ⟨[], ?_, by simp⟩
      change d.requests ++ [d.position] = _
      rw [hrequests, hposition, List.append_assoc]
  · exact (hgoes.run_eq s).trans ((askFor_withRest hsteady hask s).1 hn)
  · obtain ⟨io, i, hio⟩ := (askFor_withRest (k := k) hsteady hask s).2 hn
    exact ⟨io, by rw [hgoes.run_eq s, hio]⟩

/-- **Asking.**  Whenever a request asks for data, the octets before it end in an announcement that
waits to be asked, within the limit, and its line break.  In front of any octets behind them it asks
there again; then it takes as many of them as were announced, or fails for lack of them.
Discarding, announcements that do not wait, and those beyond the limit never ask.  And if the first
line ends in an announcement that waits to be asked and is answered without asking, the position is
right behind its line feed. -/
theorem decode_asks (ctx : Context) (hc : c.Steady) : AsksInTurn ctx c where
  asked before p after hasks := by
    obtain ⟨w, n, d, hd, hposition, hrequests⟩ := decode_asksDuly ctx hc before p after hasks
    obtain ⟨k, hk⟩ := askedFor_of_asks hc hd hposition hrequests hasks
    exact ⟨w, n, d, k, hk⟩
  discarding := Composed.discardLine.requests_eq hc
  silent mode ds s hds hrest h := requests_of_literalOctets hc hds hrest h
  unasked front ds tail more request e htail hds hlf hrest h hrequests :=
    eq_advance_of_not_asked (.of_announced hds htail hlf) ⟨hc, more, hrest⟩ h hrequests

/-- A name of three octets is asked for when nothing but its announcement has come; and an unknown
command is rejected with its line, without the octets behind it. -/
theorem decode_asks_select :
    (∃ later, (decode {} (.ofOctets (Octet.ofText "A SELECT \x7b3\x7d\r\n"))).2.requests =
      14 :: later) ∧
    (decode {} (.ofOctets (Octet.ofText "A FOO \x7b3\x7d\r\nabc"))).2 =
      (Cursor.ofOctets (Octet.ofText "A FOO \x7b3\x7d\r\nabc")).advance 11 := by
  constructor
  · have hc : (Cursor.ofOctets (Octet.ofText "A SELECT \x7b3\x7d\r\nabc\r\n")).Steady := by
      intro link hlink
      simp [Cursor.ofOctets] at hlink
    obtain ⟨w, n, d, k, hasked⟩ := (decode_asks {} hc).asked [] 14 [] (by cbv)
    have hlength : w.length = 14 := by
      have h := hasked.reaches.position_eq
      rw [hasked.position_eq] at h
      simpa [Cursor.ofOctets] using h.symm
    have hw : w = Octet.ofText "A SELECT \x7b3\x7d\r\n" := by
      have h := congrArg (List.take 14) hasked.reaches.rest_eq
      rw [List.take_left' hlength] at h
      exact h.symm.trans (by cbv)
    obtain ⟨later, hlater, -⟩ := hasked.asks []
    rw [hw, List.append_nil] at hlater
    exact ⟨later, hlater⟩
  · have hc : (Cursor.ofOctets (Octet.ofText "A FOO \x7b3\x7d\r\nabc")).Steady := by
      intro link hlink
      simp [Cursor.ofOctets] at hlink
    exact (decode_asks {} hc).unasked (Octet.ofText "A FOO ") (Octet.ofText "3") [Octet.cr]
      (Octet.ofText "abc") (.malformed (some ⟨"A"⟩) (.unknownCommand "FOO")) _ (Or.inr rfl)
      (by decide) (by decide) (by cbv) (by cbv) (by cbv)

end Request

end ImapRequest
